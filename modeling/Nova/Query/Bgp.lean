import Nova.Query.Dataset

/-!
# Basic graph patterns, by nested loops

The evaluator extends partial solutions pattern by pattern: it looks the bound
positions up, scans the quads that match, and binds the free variables of the
pattern to each of them.

`nested_count` is the result of this module: over any selection of graphs, a
mapping of the variables of the BGP is returned as often as there are ways to
choose, for every pattern, a selected quad that `Fits` it. A quad fits when it is
the instance of the pattern; one case is looser than that, as the code is: where
the predicate is a variable that an earlier pattern bound to a term that is not an
IRI, the lookup has no predicate and any predicate fits (`Bypassed`).

A blank node of a pattern is the variable `__bn_<label>`. Cancellation is not
modelled; of the options only the cap on the number of rows is read here.
-/

namespace Nova

open Nova.Lib List

/-! ## Patterns -/

inductive NamedNodePattern where
  | namedNode (n : NamedNode)
  | var (v : Variable)
deriving DecidableEq, Repr

inductive TermPattern where
  | namedNode (n : NamedNode)
  | blankNode (b : BlankNode)
  | literal (l : Literal)
  | triple (subject : TermPattern) (predicate : NamedNodePattern) (object : TermPattern)
  | var (v : Variable)
deriving DecidableEq, Repr

structure TriplePattern where
  subject : TermPattern
  predicate : NamedNodePattern
  object : TermPattern
deriving DecidableEq, Repr

/-- The variable that stands for a blank node of a pattern. -/
def bnodeVar (b : BlankNode) : Variable := ⟨"__bn_" ++ b.id⟩

/-! ## Binding a pattern to a quad -/

/-- A variable as a lookup: its value if it has one, else a wildcard and the
variable that is to be bound. -/
def varWithSol (v : Variable) (sol : Solution) : PatternTerm × Option Variable :=
  match sol.get v with
  | some t => (.bound t, none)
  | none => (.wildcard, some v)

/-- `term_pattern_with_sol`. -/
def termPatternWithSol (tp : TermPattern) (sol : Solution) : PatternTerm × Option Variable :=
  match tp with
  | .namedNode n => (.bound (.namedNode n), none)
  | .literal l => (.bound (.literal l), none)
  | .blankNode b => varWithSol (bnodeVar b) sol
  | .var v => varWithSol v sol
  -- the structure of a quoted triple is matched after the scan
  | .triple _ _ _ => (.wildcard, none)

/-- `nn_pattern_with_sol`. -/
def nnPatternWithSol (nnp : NamedNodePattern) (sol : Solution) : PatternTerm × Option Variable :=
  match nnp with
  | .namedNode n => (.bound (.namedNode n), none)
  | .var v => varWithSol v sol

/-- A variable meets a term: equal to its value, or bound to it. -/
def bindVariable (sol : Solution) (v : Variable) (t : Term) : Option Solution :=
  match sol.get v with
  | some existing => if existing = t then some sol else none
  | none => some (sol.insert v t)

/-- `bind_var_arc`. -/
def bindVarArc (sol : Solution) (var : Option Variable) (value : Term) : Option Solution :=
  match var with
  | none => some sol
  | some v => bindVariable sol v value

/-- `bind_nn_pattern`. -/
def bindNnPattern (sol : Solution) (nnp : NamedNodePattern) (t : Term) : Option Solution :=
  match nnp with
  | .namedNode n => if t = .namedNode n then some sol else none
  | .var v => bindVariable sol v t

/-- `bind_term_pattern`, with `bind_triple_pattern` for the quoted triples. -/
def bindTermPattern (sol : Solution) : TermPattern → Term → Option Solution
  | .namedNode n, t => if t = .namedNode n then some sol else none
  | .literal l, t => if t = .literal l then some sol else none
  | .blankNode b, t => bindVariable sol (bnodeVar b) t
  | .var v, t => bindVariable sol v t
  | .triple s p o, .triple s' p' o' => do
    let sol ← bindTermPattern sol s s'.toTerm
    let sol ← bindNnPattern sol p (.namedNode p')
    bindTermPattern sol o o'
  | .triple _ _ _, _ => none

/-- The quoted-triple patterns are bound after the plain ones. -/
def bindQuoted (sol : Solution) (tp : TermPattern) (t : Term) : Option Solution :=
  match tp with
  | .triple s p o => bindTermPattern sol (.triple s p o) t
  | _ => some sol

/-- The body of the innermost loop of `eval_bgp`: the solution extended to one
match. -/
def bindMatch (tp : TriplePattern) (current : Solution) (q : QuadMatch) : Option Solution := do
  let sol ← bindVarArc current (termPatternWithSol tp.subject current).2 q.subject
  let sol ← bindVarArc sol (nnPatternWithSol tp.predicate current).2 q.predicate
  let sol ← bindVarArc sol (termPatternWithSol tp.object current).2 q.object
  let sol ← bindQuoted sol tp.subject q.subject
  bindQuoted sol tp.object q.object

/-! ## The loops -/

/-- `QueryOptions`: what the evaluation of a BGP reads of them. -/
structure QueryOptions where
  maxResults : Option Nat
deriving DecidableEq, Repr

def QueryOptions.new : QueryOptions := ⟨none⟩

def QueryOptions.check (options : QueryOptions) (currentLen : Nat) : Except EvalError Unit :=
  match options.maxResults with
  | none => .ok ()
  | some max => if currentLen > max then .error (.resultLimitExceeded max) else .ok ()

/-- The lookup of a pattern under a partial solution. -/
def lookupPattern (tp : TriplePattern) (current : Solution) (graph : GraphSelector) : QuadPattern where
  subject := (termPatternWithSol tp.subject current).1
  predicate := (nnPatternWithSol tp.predicate current).1
  object := (termPatternWithSol tp.object current).1
  graph := graph

/-- One partial solution, extended in every way. -/
def extendSolution (ds : Dataset) (graph : GraphSelector) (tp : TriplePattern) (current : Solution) :
    Except EvalError (List Solution) :=
  match ds.findQuads (lookupPattern tp current graph) with
  | .error f => .error (.store f)
  | .ok quads => .ok (quads.filterMap (bindMatch tp current))

/-- The loop over the partial solutions. -/
def extendAll (ds : Dataset) (graph : GraphSelector) (tp : TriplePattern) :
    List Solution → Except EvalError (List Solution)
  | [] => .ok []
  | current :: rest => do
    let now ← extendSolution ds graph tp current
    let next ← extendAll ds graph tp rest
    return now ++ next

/-- The loop over the patterns. -/
def evalPatterns (ds : Dataset) (options : QueryOptions) (graph : GraphSelector) :
    List TriplePattern → List Solution → Except EvalError (List Solution)
  | [], solutions => .ok solutions
  | tp :: rest, solutions => do
    options.check solutions.length
    let next ← extendAll ds graph tp solutions
    evalPatterns ds options graph rest next

/-- The nested-loop part of `eval_bgp`. -/
def evalBgpNested (ds : Dataset) (options : QueryOptions) (patterns : List TriplePattern)
    (graph : GraphSelector) : Except EvalError (List Solution) :=
  evalPatterns ds options graph patterns [.new]

/-! ## What a BGP asks for -/

def NamedNodePattern.vars : NamedNodePattern → List Variable
  | .namedNode _ => []
  | .var v => [v]

def TermPattern.vars : TermPattern → List Variable
  | .namedNode _ => []
  | .literal _ => []
  | .blankNode b => [bnodeVar b]
  | .var v => [v]
  | .triple s p o => s.vars ++ p.vars ++ o.vars

def TriplePattern.vars (tp : TriplePattern) : List Variable :=
  tp.subject.vars ++ tp.predicate.vars ++ tp.object.vars

/-- The variables of a BGP, the blank nodes included. -/
def bgpVars (patterns : List TriplePattern) : List Variable := patterns.flatMap TriplePattern.vars

/-- The term is the instance of the pattern under the mapping. -/
def NamedNodePattern.Matches (μ : Mapping) : NamedNodePattern → Term → Prop
  | .namedNode n, t => t = .namedNode n
  | .var v, t => μ v = some t

def TermPattern.Matches (μ : Mapping) : TermPattern → Term → Prop
  | .namedNode n, t => t = .namedNode n
  | .literal l, t => t = .literal l
  | .blankNode b, t => μ (bnodeVar b) = some t
  | .var v, t => μ v = some t
  | .triple s p o, .triple s' p' o' =>
    s.Matches μ s'.toTerm ∧ p.Matches μ (.namedNode p') ∧ o.Matches μ o'
  | .triple _ _ _, _ => False

/-- The quad is the instance of the pattern, in some graph. -/
def TriplePattern.Matches (tp : TriplePattern) (μ : Mapping) (q : Quad) : Prop :=
  tp.subject.Matches μ q.subject.toTerm ∧ tp.predicate.Matches μ (.namedNode q.predicate) ∧
    tp.object.Matches μ q.object

/-- The mapping binds exactly the given variables. -/
def HasDomain (μ : Mapping) (vs : List Variable) : Prop := ∀ v, (μ v).isSome = true ↔ v ∈ vs

/-! ## Binders

Every function that binds has the same contract: it succeeds exactly on the
mappings that extend the solution by the given variables and satisfy a
condition. -/

/-- `μ'` keeps the bindings of `μ` and binds `vs` on top of them. -/
structure Extends (μ μ' : Mapping) (vs : List Variable) : Prop where
  keeps : ∀ v t, μ v = some t → μ' v = some t
  binds : ∀ v, (μ' v).isSome = true ↔ (μ v).isSome = true ∨ v ∈ vs

def Binds (b : Solution → Option Solution) (vs : List Variable) (M : Mapping → Prop) : Prop :=
  ∀ sol μ', (∃ sol', b sol = some sol' ∧ sol'.get = μ') ↔ Extends sol.get μ' vs ∧ M μ'

/-- The condition looks at the given variables only. -/
def Local (vs : List Variable) (M : Mapping → Prop) : Prop :=
  ∀ μ μ', (∀ v ∈ vs, μ v = μ' v) → M μ → M μ'

theorem Extends.refl (μ : Mapping) : Extends μ μ [] where
  keeps := fun _ _ h => h
  binds := by simp

variable {μ : Mapping}

variable {μ' : Mapping}

theorem Extends.eq_of_nil (h : Extends μ μ' []) : μ = μ' := by
  funext v
  cases hv : μ v with
  | some t => exact (h.keeps v t hv).symm
  | none =>
    have hno := h.binds v
    rw [hv] at hno
    have hnone : μ' v = none := by simpa using hno
    exact hnone.symm

variable {vs vs' : List Variable}

theorem Extends.congr (h : Extends μ μ' vs)
    (hvs : ∀ v, (μ v).isSome = true ∨ v ∈ vs ↔ (μ v).isSome = true ∨ v ∈ vs') : Extends μ μ' vs' where
  keeps := h.keeps
  binds := fun v => (h.binds v).trans (hvs v)

variable {μ₂ : Mapping}

theorem Extends.agree {μ₁ : Mapping} (h : Extends μ μ₁ vs)
    (h' : Extends μ₁ μ₂ vs') : ∀ v ∈ vs, μ₁ v = μ₂ v := by
  intro v hv
  have hsome := (h.binds v).mpr (.inr hv)
  rcases Option.isSome_iff_exists.mp hsome with ⟨t, ht⟩
  rw [ht, h'.keeps v t ht]

theorem Extends.trans {μ₁ : Mapping} (h : Extends μ μ₁ vs)
    (h' : Extends μ₁ μ₂ vs') : Extends μ μ₂ (vs ++ vs') where
  keeps := fun v t hv => h'.keeps v t (h.keeps v t hv)
  binds := by
    intro v
    rw [h'.binds, h.binds, mem_append, or_assoc]

theorem Extends.split (h : Extends μ μ₂ (vs ++ vs')) : ∃ μ₁, Extends μ μ₁ vs ∧ Extends μ₁ μ₂ vs' := by
  classical
  refine ⟨fun v => if (μ v).isSome = true ∨ v ∈ vs then μ₂ v else none, ⟨?_, ?_⟩, ⟨?_, ?_⟩⟩
  · intro v t hv
    simp [hv, h.keeps v t hv]
  · intro v
    by_cases hv : (μ v).isSome = true ∨ v ∈ vs
    · simp only [if_pos hv, h.binds, mem_append]
      tauto
    · simp only [if_neg hv]
      simpa using hv
  · intro v t hv
    split at hv
    · exact hv
    · cases hv
  · intro v
    rw [h.binds, mem_append]
    by_cases hv : (μ v).isSome = true ∨ v ∈ vs
    · simp only [if_pos hv, h.binds, mem_append]
      tauto
    · simp only [if_neg hv, Option.isSome_none]
      tauto

theorem Binds.congr {b : Solution → Option Solution} {M M' : Mapping → Prop}
    (h : Binds b vs M) (hvs : ∀ v, v ∈ vs ↔ v ∈ vs') (hM : ∀ μ, M μ ↔ M' μ) : Binds b vs' M' := by
  intro sol μ'
  rw [h, hM]
  have hext : Extends sol.get μ' vs ↔ Extends sol.get μ' vs' :=
    ⟨fun he => he.congr fun v => by rw [hvs], fun he => he.congr fun v => by rw [hvs]⟩
  rw [hext]

theorem Binds.skip : Binds some [] fun _ => True := by
  intro sol μ'
  constructor
  · intro h
    rcases h with ⟨sol', heq, rfl⟩
    cases heq
    exact ⟨.refl _, trivial⟩
  · intro h
    exact ⟨sol, rfl, h.1.eq_of_nil⟩

theorem Binds.guard (P : Prop) [Decidable P] :
    Binds (fun sol => if P then some sol else none) [] fun _ => P := by
  intro sol μ'
  by_cases hP : P
  · simp only [hP, and_true]
    have h := Binds.skip sol μ'
    rw [and_true] at h
    exact h
  · simp [hP]

/-- Binding a variable extends the solution by it, to this term only. -/
theorem binds_bindVariable (v : Variable) (t : Term) :
    Binds (fun sol => bindVariable sol v t) [v] fun μ => μ v = some t := by
  intro sol μ'
  cases hv : sol.get v with
  -- a variable that is bound only compares
  | some existing =>
    have hb : bindVariable sol v t = if existing = t then some sol else none := by
      rw [bindVariable, hv]
    have hbound : ∀ w, (sol.get w).isSome = true ∨ w ∈ [v] ↔ (sol.get w).isSome = true ∨ w ∈ [] := by
      intro w
      simp only [mem_singleton, not_mem_nil, or_false, or_iff_left_iff_imp]
      rintro rfl
      rw [hv]
      rfl
    beta_reduce
    rw [hb]
    constructor
    · intro h
      rcases h with ⟨sol', heq, rfl⟩
      split at heq
      · next hex =>
        cases heq
        exact ⟨(Extends.refl _).congr fun w => (hbound w).symm, by rw [hv, hex]⟩
      · cases heq
    · intro h
      rcases h with ⟨hext, hμ⟩
      have heq := (hext.congr hbound).eq_of_nil
      rw [← heq, hv] at hμ
      exact ⟨sol, if_pos (Option.some.inj hμ), heq⟩
  | none =>
    have hb : bindVariable sol v t = some (sol.insert v t) := by
      rw [bindVariable, hv]
    beta_reduce
    rw [hb]
    constructor
    · intro h
      rcases h with ⟨sol', heq, rfl⟩
      cases heq
      refine ⟨⟨?_, ?_⟩, by simp⟩
      · intro w u hw
        have hne : w ≠ v := by
          rintro rfl
          rw [hv] at hw
          cases hw
        simp [hne, hw]
      · intro w
        by_cases hw : w = v
        · simp [hw]
        · simp [hw]
    · intro h
      rcases h with ⟨hext, hμ⟩
      refine ⟨sol.insert v t, rfl, ?_⟩
      funext w
      rw [Solution.get_insert]
      by_cases hw : w = v
      · rw [if_pos hw, hw, hμ]
      · rw [if_neg hw]
        cases hs : sol.get w with
        | some u => exact (hext.keeps w u hs).symm
        | none =>
          have hno := hext.binds w
          rw [hs] at hno
          have hnone : μ' w = none := by simpa [hw] using hno
          exact hnone.symm

theorem Binds.seq {b₁ b₂ : Solution → Option Solution} {vs₁ vs₂ : List Variable}
    {M₁ M₂ : Mapping → Prop} (h₁ : Binds b₁ vs₁ M₁) (hl : Local vs₁ M₁) (h₂ : Binds b₂ vs₂ M₂) :
    Binds (fun sol => (b₁ sol).bind b₂) (vs₁ ++ vs₂) fun μ => M₁ μ ∧ M₂ μ := by
  intro sol μ'
  constructor
  · intro h
    rcases h with ⟨sol₂, heq, rfl⟩
    rcases Option.bind_eq_some_iff.mp heq with ⟨sol₁, hb₁, hb₂⟩
    rcases (h₁ sol sol₁.get).mp ⟨sol₁, hb₁, rfl⟩ with ⟨hext₁, hM₁⟩
    rcases (h₂ sol₁ sol₂.get).mp ⟨sol₂, hb₂, rfl⟩ with ⟨hext₂, hM₂⟩
    exact ⟨hext₁.trans hext₂, hl _ _ (hext₁.agree hext₂) hM₁, hM₂⟩
  · intro h
    rcases h with ⟨hext, hM₁, hM₂⟩
    rcases hext.split with ⟨μ₁, hext₁, hext₂⟩
    have hM₁' : M₁ μ₁ := hl _ _ (fun v hv => (hext₁.agree hext₂ v hv).symm) hM₁
    rcases (h₁ sol μ₁).mpr ⟨hext₁, hM₁'⟩ with ⟨sol₁, hb₁, rfl⟩
    rcases (h₂ sol₁ μ').mpr ⟨hext₂, hM₂⟩ with ⟨sol₂, hb₂, rfl⟩
    exact ⟨sol₂, by simp [hb₁, hb₂], rfl⟩

theorem NamedNodePattern.matches_local (nnp : NamedNodePattern) (t : Term) :
    Local nnp.vars fun μ => nnp.Matches μ t := by
  intro μ μ' hag h
  cases nnp with
  | namedNode n => exact h
  | var v =>
    have hv := hag v (by simp [NamedNodePattern.vars])
    simp only [NamedNodePattern.Matches] at h ⊢
    rw [← hv, h]

theorem TermPattern.matches_local (tp : TermPattern) :
    ∀ t, Local tp.vars fun μ => tp.Matches μ t := by
  induction tp with
  | namedNode n => exact fun t μ μ' _ h => h
  | literal l => exact fun t μ μ' _ h => h
  | blankNode b =>
    intro t μ μ' hag h
    have hv := hag (bnodeVar b) (by simp [TermPattern.vars])
    simp only [TermPattern.Matches] at h ⊢
    rw [← hv, h]
  | var v =>
    intro t μ μ' hag h
    have hv := hag v (by simp [TermPattern.vars])
    simp only [TermPattern.Matches] at h ⊢
    rw [← hv, h]
  | triple s p o ihs iho =>
    intro t μ μ' hag h
    cases t with
    | triple s' p' o' =>
      rcases h with ⟨hs, hp, ho⟩
      refine ⟨ihs _ μ μ' ?_ hs, p.matches_local _ μ μ' ?_ hp, iho _ μ μ' ?_ ho⟩
      · exact fun v hv => hag v (by simp [TermPattern.vars, hv])
      · exact fun v hv => hag v (by simp [TermPattern.vars, hv])
      · exact fun v hv => hag v (by simp [TermPattern.vars, hv])
    | _ => exact h.elim

theorem TriplePattern.matches_congr {tp : TriplePattern} {ν : Mapping} {q : Quad} (h : ∀ v ∈ tp.vars, μ v = ν v) :
    tp.Matches μ q ↔ tp.Matches ν q := by
  have hone : ∀ {μ ν : Mapping}, (∀ v ∈ tp.vars, μ v = ν v) → tp.Matches μ q → tp.Matches ν q := by
    rintro μ ν hag ⟨hs, hp, ho⟩
    simp only [TriplePattern.vars, mem_append] at hag
    refine ⟨tp.subject.matches_local _ μ ν (fun v hv => hag v (.inl (.inl hv))) hs,
      tp.predicate.matches_local _ μ ν (fun v hv => hag v (.inl (.inr hv))) hp,
      tp.object.matches_local _ μ ν (fun v hv => hag v (.inr hv)) ho⟩
  exact ⟨hone h, hone fun v hv => (h v hv).symm⟩

theorem binds_bindNnPattern (nnp : NamedNodePattern) (t : Term) :
    Binds (fun sol => bindNnPattern sol nnp t) nnp.vars fun μ => nnp.Matches μ t := by
  cases nnp with
  | namedNode n => exact Binds.guard (t = .namedNode n)
  | var v => exact binds_bindVariable v t

theorem binds_bindTermPattern (tp : TermPattern) :
    ∀ t, Binds (fun sol => bindTermPattern sol tp t) tp.vars fun μ => tp.Matches μ t := by
  induction tp with
  | namedNode n =>
    intro t
    simp only [bindTermPattern]
    exact Binds.guard (t = .namedNode n)
  | literal l =>
    intro t
    exact Binds.guard (t = .literal l)
  | blankNode b =>
    intro t
    exact binds_bindVariable (bnodeVar b) t
  | var v =>
    intro t
    exact binds_bindVariable v t
  | triple s p o ihs iho =>
    intro t
    cases t with
    | triple s' p' o' =>
      have hseq := (ihs s'.toTerm).seq (s.matches_local _)
        ((binds_bindNnPattern p (.namedNode p')).seq (p.matches_local _) (iho o'))
      refine (hseq.congr ?_ fun _ => Iff.rfl)
      intro v
      simp [TermPattern.vars]
    | _ =>
      intro sol μ'
      simp [bindTermPattern, TermPattern.Matches]

/-! ## One match -/

/-- The predicate is a variable that was bound before, to a term that is not an
IRI: the lookup goes on without a predicate. -/
def Bypassed (before : List Variable) (nnp : NamedNodePattern) (μ : Mapping) : Prop :=
  ∃ v t, nnp = .var v ∧ v ∈ before ∧ μ v = some t ∧ ∀ n, t ≠ .namedNode n

/-- The quad is accepted for the pattern, whose variables `before` are bound by
earlier patterns. -/
def Fits (before : List Variable) (tp : TriplePattern) (μ : Mapping) (q : Quad) : Prop :=
  tp.subject.Matches μ q.subject.toTerm ∧
    (tp.predicate.Matches μ (.namedNode q.predicate) ∨ Bypassed before tp.predicate μ) ∧
      tp.object.Matches μ q.object

theorem fits_local (before : List Variable) (tp : TriplePattern) (q : Quad) :
    Local tp.vars fun μ => Fits before tp μ q := by
  intro μ μ' hag h
  rcases h with ⟨hs, hp, ho⟩
  have hag' : ∀ v ∈ tp.predicate.vars, μ v = μ' v := fun v hv => hag v (by simp [TriplePattern.vars, hv])
  refine ⟨tp.subject.matches_local _ μ μ' ?_ hs, ?_, tp.object.matches_local _ μ μ' ?_ ho⟩
  · exact fun v hv => hag v (by simp [TriplePattern.vars, hv])
  · rcases hp with hp | ⟨v, t, hv, hmem, ht, hiri⟩
    · exact .inl (tp.predicate.matches_local _ μ μ' hag' hp)
    · refine .inr ⟨v, t, hv, hmem, ?_, hiri⟩
      rw [← hag' v (by simp [hv, NamedNodePattern.vars]), ht]
  · exact fun v hv => hag v (by simp [TriplePattern.vars, hv])

theorem binds_bindVarArc (var : Option Variable) (t : Term) :
    Binds (fun sol => bindVarArc sol var t) var.toList fun μ => ∀ v, var = some v → μ v = some t := by
  cases var with
  | none => exact Binds.skip.congr (by simp) (by simp)
  | some v => exact (binds_bindVariable v t).congr (by simp) (by simp)

theorem local_var (var : Option Variable) (t : Term) :
    Local var.toList fun μ => ∀ v, var = some v → μ v = some t := by
  intro μ μ' hag h v hv
  rw [← hag v (by simp [hv])]
  exact h v hv

def TermPattern.quotedVars : TermPattern → List Variable
  | .triple s p o => (TermPattern.triple s p o).vars
  | _ => []

def TermPattern.QuotedMatches (μ : Mapping) : TermPattern → Term → Prop
  | .triple s p o, t => (TermPattern.triple s p o).Matches μ t
  | _, _ => True

theorem binds_bindQuoted (tp : TermPattern) (t : Term) :
    Binds (fun sol => bindQuoted sol tp t) tp.quotedVars fun μ => tp.QuotedMatches μ t := by
  cases tp with
  | triple s p o => exact binds_bindTermPattern (.triple s p o) t
  | _ => exact Binds.skip

theorem TermPattern.quotedMatches_local (tp : TermPattern) (t : Term) :
    Local tp.quotedVars fun μ => tp.QuotedMatches μ t := by
  cases tp with
  | triple s p o => exact (TermPattern.triple s p o).matches_local t
  | _ => exact fun _ _ _ h => h

/-- The lookup and the two binders of a subject or object position ask for the
instance of the pattern. -/
theorem termPosition_iff (tp : TermPattern) (current : Solution) (t : Term)
    (hkeeps : ∀ v u, current.get v = some u → μ v = some u) :
    ((∀ u, (termPatternWithSol tp current).1 = .bound u → t = u) ∧
        (∀ v, (termPatternWithSol tp current).2 = some v → μ v = some t) ∧ tp.QuotedMatches μ t) ↔
      tp.Matches μ t := by
  have hvar : ∀ v, ((∀ u, (varWithSol v current).1 = .bound u → t = u) ∧
      ∀ w, (varWithSol v current).2 = some w → μ w = some t) ↔ μ v = some t := by
    intro v
    unfold varWithSol
    cases hv : current.get v with
    | none => simp
    | some u =>
      rw [hkeeps v u hv]
      simp [eq_comm]
  cases tp with
  | namedNode n => simp [termPatternWithSol, TermPattern.QuotedMatches, TermPattern.Matches]
  | literal l => simp [termPatternWithSol, TermPattern.QuotedMatches, TermPattern.Matches]
  | blankNode b =>
    simp only [termPatternWithSol, TermPattern.QuotedMatches, TermPattern.Matches, and_true]
    exact hvar (bnodeVar b)
  | var v =>
    simp only [termPatternWithSol, TermPattern.QuotedMatches, TermPattern.Matches, and_true]
    exact hvar v
  | triple s p o => simp [termPatternWithSol, TermPattern.QuotedMatches]

theorem termPosition_vars (tp : TermPattern) (current : Solution) (v : Variable) :
    (current.get v).isSome = true ∨
        v ∈ (termPatternWithSol tp current).2.toList ++ tp.quotedVars ↔
      (current.get v).isSome = true ∨ v ∈ tp.vars := by
  have hvar : ∀ w, (current.get v).isSome = true ∨ v ∈ (varWithSol w current).2.toList ↔
      (current.get v).isSome = true ∨ v = w := by
    intro w
    unfold varWithSol
    cases hw : current.get w with
    | none => simp
    | some u =>
      simp only [Option.toList_none, not_mem_nil, or_false, iff_self_or]
      rintro rfl
      rw [hw]
      rfl
  cases tp with
  | blankNode b => simpa [termPatternWithSol, TermPattern.quotedVars, TermPattern.vars] using hvar _
  | var w => simpa [termPatternWithSol, TermPattern.quotedVars, TermPattern.vars] using hvar w
  | _ => simp [termPatternWithSol, TermPattern.quotedVars, TermPattern.vars]

variable {before : List Variable}

theorem nnPosition_iff (nnp : NamedNodePattern) (current : Solution)
    (hdom : HasDomain current.get before) (n : NamedNode)
    (hkeeps : ∀ v u, current.get v = some u → μ v = some u) :
    ((∀ m, (nnPatternWithSol nnp current).1 = .bound (.namedNode m) → n = m) ∧
        ∀ v, (nnPatternWithSol nnp current).2 = some v → μ v = some (.namedNode n)) ↔
      nnp.Matches μ (.namedNode n) ∨ Bypassed before nnp μ := by
  cases nnp with
  | namedNode m => simp [nnPatternWithSol, NamedNodePattern.Matches, Bypassed]
  | var v =>
    simp only [nnPatternWithSol, varWithSol, NamedNodePattern.Matches]
    cases hv : current.get v with
    | none =>
      have hnot : v ∉ before := by
        intro hmem
        have hsome := (hdom v).mpr hmem
        rw [hv] at hsome
        cases hsome
      have hno : ¬Bypassed before (.var v) μ := by
        intro hb
        rcases hb with ⟨w, t, hw, hmem, -⟩
        cases hw
        exact hnot hmem
      simp [hno]
    | some u =>
      have hmem : v ∈ before := (hdom v).mp (by rw [hv]; rfl)
      have hμ := hkeeps v u hv
      by_cases hu : ∃ m, u = .namedNode m
      · -- an IRI is looked up
        rcases hu with ⟨m, rfl⟩
        have hno : ¬Bypassed before (.var v) μ := by
          intro hb
          rcases hb with ⟨w, t, hw, -, ht, hiri⟩
          cases hw
          rw [hμ] at ht
          exact hiri m (Option.some.inj ht).symm
        simp [hno, hμ, eq_comm]
      · -- any other term is dropped from the lookup
        have hb : Bypassed before (.var v) μ := ⟨v, u, rfl, hmem, hμ, fun m hm => hu ⟨m, hm⟩⟩
        have hiri : ∀ m, u ≠ .namedNode m := fun m hm => hu ⟨m, hm⟩
        simp [hb, hiri]

theorem nnPosition_vars (nnp : NamedNodePattern) (current : Solution) (v : Variable) :
    (current.get v).isSome = true ∨ v ∈ (nnPatternWithSol nnp current).2.toList ↔
      (current.get v).isSome = true ∨ v ∈ nnp.vars := by
  cases nnp with
  | namedNode n => simp [nnPatternWithSol, NamedNodePattern.vars]
  | var w =>
    simp only [nnPatternWithSol, varWithSol, NamedNodePattern.vars]
    cases hw : current.get w with
    | none => simp
    | some u =>
      simp only [Option.toList_none, not_mem_nil, or_false, mem_singleton, iff_self_or]
      rintro rfl
      rw [hw]
      rfl

/-- What a match can bind, beside what is bound already, are the variables of the pattern. -/
theorem positions_vars (tp : TriplePattern) (current : Solution) (v : Variable) :
    (current.get v).isSome = true ∨
        v ∈ (termPatternWithSol tp.subject current).2.toList ++
          ((nnPatternWithSol tp.predicate current).2.toList ++
            ((termPatternWithSol tp.object current).2.toList ++
              (tp.subject.quotedVars ++ tp.object.quotedVars))) ↔
      (current.get v).isSome = true ∨ v ∈ tp.vars := by
  have hs := termPosition_vars tp.subject current v
  have hp := nnPosition_vars tp.predicate current v
  have ho := termPosition_vars tp.object current v
  by_cases hv : (current.get v).isSome = true
  · simp [hv]
  · simp only [hv, Bool.false_eq_true, false_or, mem_append] at hs hp ho ⊢
    simp only [TriplePattern.vars, mem_append, ← hs, ← hp, ← ho]
    simp only [or_assoc, or_left_comm]

/-- A quad is found and bound exactly when it fits, and the result is the mapping
that it fits. -/
theorem bindMatch_iff (tp : TriplePattern) (current : Solution) (graph : GraphSelector)
    (hdom : HasDomain current.get before) (q : Quad) (μ' : Mapping) :
    (FindMatches (lookupPattern tp current graph) q ∧
        ∃ sol', bindMatch tp current q.found = some sol' ∧ sol'.get = μ') ↔
      Extends current.get μ' tp.vars ∧ Fits before tp μ' q := by
  have hbind := ((binds_bindVarArc (termPatternWithSol tp.subject current).2 q.subject.toTerm).seq
    (local_var _ _) ((binds_bindVarArc (nnPatternWithSol tp.predicate current).2
      (.namedNode q.predicate)).seq (local_var _ _)
    ((binds_bindVarArc (termPatternWithSol tp.object current).2 q.object).seq (local_var _ _)
    ((binds_bindQuoted tp.subject q.subject.toTerm).seq (tp.subject.quotedMatches_local _)
      (binds_bindQuoted tp.object q.object))))) current μ'
  have hchain : (∃ sol', bindMatch tp current q.found = some sol' ∧ sol'.get = μ') ↔ _ := hbind
  rw [hchain]
  constructor
  · intro h
    rcases h with ⟨⟨hfs, hfp, hfo⟩, hext, hms, hmp, hmo, hqs, hqo⟩
    have hkeeps := hext.keeps
    refine ⟨hext.congr (positions_vars tp current), ?_, ?_, ?_⟩
    · exact (termPosition_iff tp.subject current _ hkeeps).mp ⟨hfs, hms, hqs⟩
    · exact (nnPosition_iff tp.predicate current hdom _ hkeeps).mp ⟨hfp, hmp⟩
    · exact (termPosition_iff tp.object current _ hkeeps).mp ⟨hfo, hmo, hqo⟩
  · intro h
    rcases h with ⟨hext, hs, hp, ho⟩
    have hkeeps := hext.keeps
    rcases (termPosition_iff tp.subject current _ hkeeps).mpr hs with ⟨hfs, hms, hqs⟩
    rcases (nnPosition_iff tp.predicate current hdom _ hkeeps).mpr hp with ⟨hfp, hmp⟩
    rcases (termPosition_iff tp.object current _ hkeeps).mpr ho with ⟨hfo, hmo, hqo⟩
    exact ⟨⟨hfs, hfp, hfo⟩, hext.congr fun v => (positions_vars tp current v).symm, hms, hmp, hmo, hqs, hqo⟩

/-! ## Properties of the solutions -/

/-- The property stays when a variable of `W` is bound. -/
def Kept (W : Set Variable) (P : Solution → Prop) : Prop :=
  ∀ {sol : Solution} {v : Variable}, P sol → v ∈ W → ∀ t, P (sol.insert v t)

section Kept

variable {W : Set Variable} {P : Solution → Prop} {sol sol' : Solution} {v : Variable} {t : Term}
    {tp : TermPattern}

theorem Kept.bindVariable (hP : Kept W P) (h : P sol) (hv : v ∈ W)
    (hb : bindVariable sol v t = some sol') : P sol' := by
  unfold Nova.bindVariable at hb
  split at hb
  · split at hb
    · cases hb
      exact h
    · cases hb
  · cases hb
    exact hP h hv t

theorem Kept.bindVarArc (hP : Kept W P) {var : Option Variable} (h : P sol) (hv : ∀ v, var = some v → v ∈ W)
    (hb : bindVarArc sol var t = some sol') : P sol' := by
  cases var with
  | none =>
    cases hb
    exact h
  | some v => exact hP.bindVariable h (hv v rfl) hb

theorem kept_guard {c : Prop} [Decidable c] (h : P sol)
    (hb : (if c then some sol else none) = some sol') : P sol' := by
  split at hb
  · cases hb
    exact h
  · cases hb

theorem Kept.bindNnPattern (hP : Kept W P) {nnp : NamedNodePattern} (h : P sol) (hv : ∀ v ∈ nnp.vars, v ∈ W)
    (hb : bindNnPattern sol nnp t = some sol') : P sol' := by
  cases nnp with
  | namedNode n => exact kept_guard h hb
  | var v => exact hP.bindVariable h (hv v mem_cons_self) hb

theorem Kept.bindTermPattern (hP : Kept W P) (tp : TermPattern) : ∀ {sol sol' : Solution} {t : Term},
    P sol → (∀ v ∈ tp.vars, v ∈ W) → bindTermPattern sol tp t = some sol' → P sol' := by
  induction tp with
  | namedNode n => exact fun h _ hb => kept_guard h hb
  | literal l => exact fun h _ hb => kept_guard h hb
  | blankNode b => exact fun h hv hb => hP.bindVariable h (hv _ mem_cons_self) hb
  | var v => exact fun h hv hb => hP.bindVariable h (hv _ mem_cons_self) hb
  | triple s p o ihs iho =>
    intro sol sol' t h hv hb
    simp only [TermPattern.vars, mem_append] at hv
    cases t with
    | triple s' p' o' =>
      rcases Option.bind_eq_some_iff.mp hb with ⟨sol₁, hs, hb⟩
      rcases Option.bind_eq_some_iff.mp hb with ⟨sol₂, hp, ho⟩
      have h₁ := ihs h (fun v hm => hv v (.inl (.inl hm))) hs
      have h₂ := hP.bindNnPattern h₁ (fun v hm => hv v (.inl (.inr hm))) hp
      exact iho h₂ (fun v hm => hv v (.inr hm)) ho
    | _ => cases hb

theorem mem_vars_of_termPatternWithSol
    (h : (termPatternWithSol tp sol).2 = some v) : v ∈ tp.vars := by
  have hvar : ∀ w, (varWithSol w sol).2 = some v → v = w := by
    intro w hw
    unfold varWithSol at hw
    split at hw
    · cases hw
    · exact (Option.some.inj hw).symm
  cases tp with
  | blankNode b => exact mem_singleton.mpr (hvar _ h)
  | var w => exact mem_singleton.mpr (hvar w h)
  | _ => cases h

theorem mem_vars_of_nnPatternWithSol {nnp : NamedNodePattern}
    (h : (nnPatternWithSol nnp sol).2 = some v) : v ∈ nnp.vars := by
  cases nnp with
  | namedNode n => cases h
  | var w =>
    simp only [nnPatternWithSol, varWithSol] at h
    split at h
    · cases h
    · rw [← Option.some.inj h]
      exact mem_cons_self

theorem Kept.bindQuoted (hP : Kept W P) (h : P sol) (hv : ∀ v ∈ tp.vars, v ∈ W)
    (hb : bindQuoted sol tp t = some sol') : P sol' := by
  cases tp with
  | triple s p o => exact hP.bindTermPattern _ h hv hb
  | _ =>
    cases hb
    exact h

theorem Kept.bindMatch (hP : Kept W P) {tp : TriplePattern} {q : QuadMatch} (h : P sol) (hv : ∀ v ∈ tp.vars, v ∈ W)
    (hb : bindMatch tp sol q = some sol') : P sol' := by
  simp only [TriplePattern.vars, mem_append] at hv
  have hs : ∀ v ∈ tp.subject.vars, v ∈ W := fun v hm => hv v (.inl (.inl hm))
  have hp : ∀ v ∈ tp.predicate.vars, v ∈ W := fun v hm => hv v (.inl (.inr hm))
  have ho : ∀ v ∈ tp.object.vars, v ∈ W := fun v hm => hv v (.inr hm)
  rcases Option.bind_eq_some_iff.mp hb with ⟨sol₁, h₁, hb⟩
  rcases Option.bind_eq_some_iff.mp hb with ⟨sol₂, h₂, hb⟩
  rcases Option.bind_eq_some_iff.mp hb with ⟨sol₃, h₃, hb⟩
  rcases Option.bind_eq_some_iff.mp hb with ⟨sol₄, h₄, hb⟩
  have hk₁ := hP.bindVarArc h (fun v hm => hs v (mem_vars_of_termPatternWithSol hm)) h₁
  have hk₂ := hP.bindVarArc hk₁ (fun v hm => hp v (mem_vars_of_nnPatternWithSol hm)) h₂
  have hk₃ := hP.bindVarArc hk₂ (fun v hm => ho v (mem_vars_of_termPatternWithSol hm)) h₃
  exact hP.bindQuoted (hP.bindQuoted hk₃ hs h₄) ho hb

theorem Kept.mergeCompatible (hP : Kept W P) {other : Solution} (h : P sol)
    (hother : ∀ cell ∈ other.iter, cell.1 ∈ W)
    (hm : sol.mergeCompatible other = some sol') : P sol' := by
  have hfold : ∀ {cells : List (Variable × Term)} {sol : Solution}, P sol → (∀ cell ∈ cells, cell.1 ∈ W) →
      P (cells.foldl (fun merged cell => merged.insert cell.1 cell.2) sol) := by
    intro cells
    induction cells with
    | nil => exact fun h _ => h
    | cons cell cells ih =>
      intro sol h hcells
      exact ih (hP h (hcells cell mem_cons_self) _) fun c hc => hcells c (mem_cons_of_mem _ hc)
  unfold Solution.mergeCompatible at hm
  split at hm
  · cases hm
    exact hfold h hother
  · cases hm

variable {ds : Dataset} {graph : GraphSelector}

theorem mem_extendAll {tp : TriplePattern} : ∀ {sols out : List Solution}, extendAll ds graph tp sols = .ok out →
    ∀ sol ∈ out, ∃ current ∈ sols, ∃ q, Nova.bindMatch tp current q = some sol := by
  intro sols
  induction sols with
  | nil =>
    intro out hr
    cases hr
    exact nofun
  | cons current rest ih =>
    intro out hr sol hsol
    rcases bind_ok hr with ⟨now, hnow, hr⟩
    rcases bind_ok hr with ⟨next, hnext, hr⟩
    cases hr
    rcases mem_append.mp hsol with hsol | hsol
    · unfold extendSolution at hnow
      split at hnow
      · cases hnow
      · cases hnow
        rcases mem_filterMap.mp hsol with ⟨q, _, hq⟩
        exact ⟨current, mem_cons_self, q, hq⟩
    · rcases ih hnext sol hsol with ⟨before, hbefore, hq⟩
      exact ⟨before, mem_cons_of_mem _ hbefore, hq⟩

theorem evalPatterns_run {options : QueryOptions} {I : List TriplePattern → Solution → Prop} :
    ∀ {rest : List TriplePattern} (done : List TriplePattern) {sols out : List Solution},
      (∀ {done}, ∀ tp ∈ rest, ∀ {sol sol' q}, I done sol → Nova.bindMatch tp sol q = some sol' →
        I (done ++ [tp]) sol') →
      (∀ sol ∈ sols, I done sol) → evalPatterns ds options graph rest sols = .ok out →
      ∀ sol ∈ out, I (done ++ rest) sol := by
  intro rest
  induction rest with
  | nil =>
    intro done sols out _ h hr
    cases hr
    rwa [append_nil]
  | cons tp rest ih =>
    intro done sols out hstep h hr
    rcases bind_ok hr with ⟨_, _, hr⟩
    rcases bind_ok hr with ⟨next, hnext, hr⟩
    rw [append_cons]
    refine ih _ (fun tp' htp' => hstep tp' (mem_cons_of_mem _ htp')) (fun sol hsol => ?_) hr
    rcases mem_extendAll hnext sol hsol with ⟨current, hcurrent, q, hq⟩
    exact hstep tp mem_cons_self (h current hcurrent) hq

theorem Kept.evalPatterns (hP : Kept W P) {options : QueryOptions} {patterns : List TriplePattern}
    {sols out : List Solution} (hv : ∀ v ∈ bgpVars patterns, v ∈ W) (h : ∀ sol ∈ sols, P sol)
    (hr : evalPatterns ds options graph patterns sols = .ok out) : ∀ sol ∈ out, P sol :=
  evalPatterns_run (I := fun _ => P) []
    (fun tp htp _ _ _ hsol hq => hP.bindMatch hsol (fun v hm => hv v (mem_flatMap.mpr ⟨tp, htp, hm⟩)) hq) h hr

end Kept

/-! ## How often a mapping is returned -/

section Counting

open Classical in
/-- How often a mapping is among the solutions. -/
noncomputable def copies (sols : List Solution) (μ : Mapping) : Nat := (sols.map Solution.get).count μ

theorem copies_singleton (sol : Solution) : copies [sol] sol.get = 1 := by
  classical
  rw [copies, map_singleton, count_singleton_self]

open Classical in
/-- The selected quads that fit a pattern. -/
noncomputable def fitting (S : Finset Quad) (graph : GraphSelector) (before : List Variable)
    (tp : TriplePattern) (μ : Mapping) : Finset Quad :=
  (selected S graph).filter (Fits before tp μ)

/-- The number of ways to choose a fitting quad for every pattern. -/
noncomputable def timesFitted (S : Finset Quad) (graph : GraphSelector) :
    List Variable → List TriplePattern → Mapping → Nat
  | _, [], _ => 1
  | before, tp :: rest, μ =>
    (fitting S graph before tp μ).card * timesFitted S graph (before ++ tp.vars) rest μ

/-- The part of a mapping that binds the given variables. -/
def restrict (vs : List Variable) (μ : Mapping) : Mapping := fun v => if v ∈ vs then μ v else none

theorem extends_iff_restrict (hdom : HasDomain μ before) :
    Extends μ μ' vs ↔ HasDomain μ' (before ++ vs) ∧ μ = restrict before μ' := by
  constructor
  · intro h
    constructor
    · intro v
      rw [h.binds, hdom, mem_append]
    · funext v
      unfold restrict
      by_cases hv : v ∈ before
      · rcases Option.isSome_iff_exists.mp ((hdom v).mpr hv) with ⟨t, ht⟩
        rw [if_pos hv, ht, h.keeps v t ht]
      · rw [if_neg hv]
        have hno := (hdom v).not.mpr hv
        simpa using hno
  · intro h
    rcases h with ⟨hdom', rfl⟩
    constructor
    · intro v t hv
      unfold restrict at hv
      split at hv
      · exact hv
      · cases hv
    · intro v
      rw [hdom', hdom, mem_append]

theorem HasDomain.restrict (h : HasDomain μ (vs ++ vs')) : HasDomain (restrict vs μ) vs := by
  intro v
  unfold Nova.restrict
  by_cases hv : v ∈ vs
  · simp [hv, h v]
  · simp [hv]

def TermPattern.isQuoted : TermPattern → Bool
  | .triple _ _ _ => true
  | _ => false

def TriplePattern.isQuoted (tp : TriplePattern) : Bool := tp.subject.isQuoted || tp.object.isQuoted

theorem TermPattern.Matches.value {tp : TermPattern} {t : Term} (h : tp.Matches μ t)
    (hplain : tp.isQuoted = false) {v : Variable} (hv : v ∈ tp.vars) : μ v = some t := by
  cases tp with
  | blankNode b =>
    rw [mem_singleton.mp hv]
    exact h
  | var w =>
    rw [mem_singleton.mp hv]
    exact h
  | triple s p o => cases hplain
  | _ => cases hv

variable {st : QuadStore} {S : Finset Quad} {Known : Term → Prop}

/-- The terms of a solution may be looked up. -/
def AskableValues (Known : Term → Prop) (sol : Solution) : Prop :=
  ∀ v t, sol.get v = some t → Askable Known t

theorem askable_namedNode (n : NamedNode) : Askable Known (.namedNode n) := fun h => by cases h

theorem askable_subject (s : Subject) : Askable Known s.toTerm := by
  intro h
  rw [s.toTerm_isTriple] at h
  cases h

variable {current : Solution}

/-- What a match adds to a solution is taken from the store. -/
theorem askableValues_of_fits (h : Serves st S Known) {tp : TriplePattern} {graph : GraphSelector}
    (hquoted : tp.isQuoted = true → ∀ t, Askable Known t) {sol' : Solution}
    (hdom : HasDomain current.get before)
    (hcur : AskableValues Known current) {q : Quad} (hq : q ∈ selected S graph)
    (hext : Extends current.get sol'.get tp.vars) (hfits : Fits before tp sol'.get q) :
    AskableValues Known sol' := by
  intro v t ht
  cases hb : tp.isQuoted with
  | true => exact hquoted hb t
  | false =>
    rw [TriplePattern.isQuoted, Bool.or_eq_false_iff] at hb
    rcases hfits with ⟨hs, hp, ho⟩
    cases hcurv : current.get v with
    | some u =>
      have hu := hext.keeps v u hcurv
      rw [hu] at ht
      cases ht
      exact hcur v t hcurv
    | none =>
      have hsome := (hext.binds v).mp (by rw [ht]; rfl)
      rw [hcurv] at hsome
      simp only [Option.isSome_none, Bool.false_eq_true, false_or, TriplePattern.vars,
        mem_append] at hsome
      rcases hsome with (hv | hv) | hv
      · rw [hs.value hb.1 hv] at ht
        cases ht
        exact askable_subject q.subject
      · rcases hp with hp | ⟨w, u, hw, hmem, -⟩
        · cases hnn : tp.predicate with
          | namedNode n =>
            rw [hnn] at hv
            cases hv
          | var w =>
            rw [hnn] at hv hp
            rw [mem_singleton.mp hv, hp] at ht
            cases ht
            exact askable_namedNode q.predicate
        · -- a bypassed predicate was bound before
          rw [hw] at hv
          rw [← mem_singleton.mp hv, ← hdom v, hcurv] at hmem
          cases hmem
      · rw [ho.value hb.2 hv] at ht
        cases ht
        exact h.stored q (Finset.mem_filter.mp hq).1

theorem askable_lookup {tp : TermPattern} (hcur : AskableValues Known current)
    {t : Term} (ht : (termPatternWithSol tp current).1 = .bound t) : Askable Known t := by
  have hvar : ∀ v, (varWithSol v current).1 = .bound t → Askable Known t := by
    intro v hv
    unfold varWithSol at hv
    cases hget : current.get v with
    | none =>
      rw [hget] at hv
      cases hv
    | some u =>
      rw [hget] at hv
      cases hv
      exact hcur v t hget
  cases tp with
  | namedNode n =>
    cases ht
    exact fun h => by cases h
  | literal l =>
    cases ht
    exact fun h => by cases h
  | blankNode b => exact hvar _ ht
  | var v => exact hvar v ht
  | triple s p o => cases ht

open Classical in
/-- One partial solution: a mapping is reached from it as often as there are
quads that fit. -/
theorem extendSolution_spec (h : Serves st S Known) (graph : GraphSelector) {tp : TriplePattern}
    (hquoted : tp.isQuoted = true → ∀ t, Askable Known t)
    (hdom : HasDomain current.get before) (hcur : AskableValues Known current) :
    ∃ sols, extendSolution (storeDataset st) graph tp current = .ok sols ∧
      (∀ sol ∈ sols, HasDomain sol.get (before ++ tp.vars) ∧ AskableValues Known sol) ∧
      ∀ μ', copies sols μ' = (if current.get = restrict before μ' then 1 else 0) *
        if HasDomain μ' (before ++ tp.vars) then (fitting S graph before tp μ').card else 0 := by
  rcases findQuads_spec h (lookupPattern tp current graph) (fun t ht => askable_lookup hcur ht)
    (fun t ht => askable_lookup hcur ht) with ⟨qs, hr, hnodup, hmem⟩
  refine ⟨(qs.map Quad.found).filterMap (bindMatch tp current), ?_, ?_, ?_⟩
  · rw [extendSolution, hr]
  · intro sol hsol
    rcases mem_filterMap.mp hsol with ⟨m, hm, hbind⟩
    rcases mem_map.mp hm with ⟨q, hq, rfl⟩
    rcases (hmem q).mp hq with ⟨hsel, hfind⟩
    rcases (bindMatch_iff tp current graph hdom q sol.get).mp ⟨hfind, sol, hbind, rfl⟩
      with ⟨hext, hfits⟩
    exact ⟨((extends_iff_restrict hdom).mp hext).1,
      askableValues_of_fits h hquoted hdom hcur hsel hext hfits⟩
  · intro μ'
    rw [copies, filterMap_map, map_filterMap, count_filterMap,
      countP_eq_length_filter, ← toFinset_card_of_nodup (hnodup.filter _)]
    -- the quads that lead to `μ'` are the fitting ones
    have hset : ∀ q, q ∈ (qs.filter fun q => (Option.map Solution.get
        ((bindMatch tp current ∘ Quad.found) q)) == some μ').toFinset ↔
        q ∈ selected S graph ∧ Extends current.get μ' tp.vars ∧ Fits before tp μ' q := by
      intro q
      rw [mem_toFinset, mem_filter, hmem, ← bindMatch_iff tp current graph hdom q μ',
        beq_iff_eq, Option.map_eq_some_iff, and_assoc]
      rfl
    by_cases hext : Extends current.get μ' tp.vars
    · rcases (extends_iff_restrict hdom).mp hext with ⟨hdom', hrest⟩
      rw [if_pos hrest, if_pos hdom', one_mul]
      congr 1
      ext q
      rw [hset, fitting, Finset.mem_filter]
      tauto
    · have hzero : (if current.get = restrict before μ' then 1 else 0) *
          (if HasDomain μ' (before ++ tp.vars) then (fitting S graph before tp μ').card else 0) = 0 := by
        by_cases hrest : current.get = restrict before μ'
        · have hdom' : ¬HasDomain μ' (before ++ tp.vars) :=
            fun hd => hext ((extends_iff_restrict hdom).mpr ⟨hd, hrest⟩)
          rw [if_neg hdom', Nat.mul_zero]
        · rw [if_neg hrest, Nat.zero_mul]
      rw [hzero, Finset.card_eq_zero, Finset.eq_empty_iff_forall_notMem]
      intro q hq
      exact hext ((hset q).mp hq).2.1

open Classical in
/-- The loop over the partial solutions. -/
theorem extendAll_spec (h : Serves st S Known) (graph : GraphSelector) {tp : TriplePattern}
    (hquoted : tp.isQuoted = true → ∀ t, Askable Known t)
    (solutions : List Solution) (hsols : ∀ sol ∈ solutions, HasDomain sol.get before ∧
      AskableValues Known sol) : ∃ next, extendAll (storeDataset st) graph tp solutions = .ok next ∧
      (∀ sol ∈ next, HasDomain sol.get (before ++ tp.vars) ∧ AskableValues Known sol) ∧
      ∀ μ', copies next μ' = copies solutions (restrict before μ') *
        if HasDomain μ' (before ++ tp.vars) then (fitting S graph before tp μ').card else 0 := by
  induction solutions with
  | nil => exact ⟨[], rfl, by simp, fun μ' => by simp [copies]⟩
  | cons current rest ih =>
    rcases hsols current mem_cons_self with ⟨hdom, hcur⟩
    rcases extendSolution_spec h graph hquoted hdom hcur with ⟨now, hnow, hgood, hcount⟩
    rcases ih (fun sol hsol => hsols sol (mem_cons_of_mem _ hsol)) with
      ⟨next, hnext, hgood', hcount'⟩
    refine ⟨now ++ next, ?_, ?_, ?_⟩
    · rw [extendAll, hnow, hnext]
      rfl
    · intro sol hsol
      rcases mem_append.mp hsol with hsol | hsol
      · exact hgood sol hsol
      · exact hgood' sol hsol
    · intro μ'
      have happ : copies (now ++ next) μ' = copies now μ' + copies next μ' := by
        rw [copies, map_append, count_append]
        rfl
      have hcons : copies (current :: rest) (restrict before μ') =
          (if current.get = restrict before μ' then 1 else 0) + copies rest (restrict before μ') := by
        rw [copies, map_cons, count_cons, Nat.add_comm]
        simp only [beq_iff_eq]
        rfl
      rw [happ, hcount, hcount', hcons, Nat.add_mul]

open Classical in
/-- The loop over the patterns, from solutions with the same domain. -/
theorem evalPatterns_spec (h : Serves st S Known) (graph : GraphSelector) (patterns : List TriplePattern)
    (hquoted : ∀ tp ∈ patterns, tp.isQuoted = true → ∀ t, Askable Known t) :
    ∀ {before : List Variable} {solutions : List Solution},
      (∀ sol ∈ solutions, HasDomain sol.get before ∧ AskableValues Known sol) →
      ∃ sols, evalPatterns (storeDataset st) .new graph patterns solutions = .ok sols ∧
        ∀ μ', copies sols μ' = if HasDomain μ' (before ++ bgpVars patterns) then
          copies solutions (restrict before μ') * timesFitted S graph before patterns μ' else 0 := by
  induction patterns with
  | nil =>
    intro before solutions hsols
    refine ⟨solutions, rfl, ?_⟩
    intro μ'
    simp only [bgpVars, flatMap_nil, append_nil, timesFitted, Nat.mul_one]
    split
    · next hdom =>
      -- a mapping with this domain is its own restriction
      have hself : restrict before μ' = μ' := by
        funext v
        unfold restrict
        split
        · rfl
        · next hv =>
          have hno := (hdom v).not.mpr hv
          have hnone : μ' v = none := by simpa using hno
          exact hnone.symm
      rw [hself]
    · next hdom =>
      rw [copies, count_eq_zero]
      intro hmem
      rcases mem_map.mp hmem with ⟨sol, hsol, rfl⟩
      exact hdom (hsols sol hsol).1
  | cons tp rest ih =>
    intro before solutions hsols
    rcases extendAll_spec h graph (hquoted tp mem_cons_self) solutions hsols with
      ⟨next, hnext, hgood, hcount⟩
    rcases ih (fun tp' htp' => hquoted tp' (mem_cons_of_mem _ htp')) hgood with
      ⟨sols, hsols', hcount'⟩
    refine ⟨sols, ?_, ?_⟩
    · rw [evalPatterns, hnext]
      exact hsols'
    · intro μ'
      have hvars : before ++ bgpVars (tp :: rest) = before ++ tp.vars ++ bgpVars rest := by
        rw [bgpVars, flatMap_cons, append_assoc]
        rfl
      rw [hcount', hvars]
      split
      · next hdom =>
        have hback : restrict before (restrict (before ++ tp.vars) μ') = restrict before μ' := by
          funext v
          unfold restrict
          by_cases hv : v ∈ before
          · simp [hv]
          · simp [hv]
        have hfit : fitting S graph before tp (restrict (before ++ tp.vars) μ') =
            fitting S graph before tp μ' := by
          have hag : ∀ v ∈ tp.vars, restrict (before ++ tp.vars) μ' v = μ' v := by
            intro v hv
            simp [restrict, hv]
          refine Finset.filter_congr fun q _ => ⟨?_, ?_⟩
          · exact fits_local before tp q _ _ hag
          · exact fits_local before tp q _ _ fun v hv => (hag v hv).symm
        rw [hcount, if_pos hdom.restrict, hback, hfit, timesFitted, Nat.mul_assoc]
      · rfl

open Classical in
/-- The nested loops return a mapping of the variables of the BGP as often as
there are ways to fit a selected quad to every pattern, and nothing else. -/
theorem nested_count (h : Serves st S Known) (patterns : List TriplePattern) (graph : GraphSelector)
    (hquoted : ∀ tp ∈ patterns, tp.isQuoted = true → ∀ t, Askable Known t) :
    ∃ sols, evalBgpNested (storeDataset st) .new patterns graph = .ok sols ∧
      ∀ μ, copies sols μ = if HasDomain μ (bgpVars patterns) then timesFitted S graph [] patterns μ
        else 0 := by
  have hstart : ∀ sol ∈ [Solution.new], HasDomain sol.get [] ∧ AskableValues Known sol := by
    intro sol hsol
    rw [mem_singleton.mp hsol]
    exact ⟨fun v => by simp, fun v t ht => by simp at ht⟩
  rcases evalPatterns_spec h graph patterns hquoted hstart with ⟨sols, hr, hcount⟩
  refine ⟨sols, hr, ?_⟩
  intro μ
  have hone : copies [Solution.new] (restrict [] μ) = 1 := by
    have heq : Solution.new.get = restrict [] μ := by
      funext v
      simp [restrict]
    rw [copies, map_singleton, heq, count_singleton_self]
  rw [hcount, hone, Nat.one_mul, nil_append]

end Counting

end Nova
