import Nova.Cypher.Names
import Nova.Cypher.Query

/-!
# The variables that the lowering makes up

A property access has the variable `{var}_{prop}`; anonymous nodes and relationships
and the helpers of the write clauses have variables numbered by one counter
(`Program.purposes`). Meant is that no two purposes share a variable, nor a purpose and
a name (`Distinct`). `distinct_iff_namesApart` says when the names in the source keep
them apart.
-/

namespace Nova

open Nova.Lib List

namespace Cypher

open Update (DeleteInsert)

/-! ## Programs -/

inductive Program where
  | query (q : CypherQuery)
  | statement (stmt : CypherStatement)
deriving DecidableEq, Repr

/-- What a program is lowered to: a query, or the operations of an update. -/
inductive Lowered where
  | query (q : Eval.Query)
  | update (ops : List DeleteInsert)

/-- `lower` or `lower_statement`. -/
def Program.lower (validName : String → Bool) : Program → Except String Lowered
  | .query q => do return .query (← lowerQuery validName q)
  | .statement stmt => do return .update (← lowerStatement validName stmt)

/-- What is counted in the order in which the lowering counts it; a blank node of
`CREATE` is counted as well. -/
def createStem : String := "cyphercreate"

def NodePattern.stems (node : NodePattern) : List String := if node.var.isNone then ["node"] else []

def RelPattern.stems (rel : RelPattern) : List String :=
  if rel.varLength.isNone && rel.relType.isNone && rel.var.isNone then ["rel"] else []

def Pattern.stems (p : Pattern) : List String :=
  p.start.stems ++ p.hops.flatMap fun hop => hop.2.stems ++ hop.1.stems

/-- The number of nodes that `CREATE` makes: a name that is known stands for the same
node. -/
def newNodes : List String → List NodePattern → Nat
  | _, [] => 0
  | known, node :: nodes =>
    match node.var with
    | none => newNodes known nodes + 1
    | some name => if name ∈ known then newNodes known nodes else newNodes (name :: known) nodes + 1

def Pattern.nodes (p : Pattern) : List NodePattern := p.start :: p.hops.map Prod.snd

def WriteClause.stems (nodes rels : List String) : WriteClause → List String
  | .create pattern => List.replicate (newNodes nodes pattern.nodes) createStem
  | .setProperty _ _ _ => ["set_old", "set_val"]
  | .setLabel _ _ => []
  | .delete names _ => names.flatMap fun name => if name ∈ rels then [] else ["del_p", "del_o", "del_s", "del_p2"]
  | .removeProperty _ _ => ["remove_old"]
  | .removeLabel _ _ => []

/-- The variables that a clause names. -/
def WriteClause.names : WriteClause → List String
  | .create pattern => pattern.nodeNames ++ pattern.relNames
  | _ => []

namespace Program

def stems : Program → List String
  | .query q => q.pattern.stems
  | .statement stmt =>
    ((stmt.pattern.map Pattern.stems).getD []) ++
      stmt.writes.flatMap (WriteClause.stems stmt.nodeNames stmt.relNames)

/-- The variables named in a pattern of the source. -/
def names : Program → List String
  | .query q => q.pattern.nodeNames ++ q.pattern.relNames
  | .statement stmt => stmt.nodeNames ++ stmt.relNames ++ stmt.writes.flatMap WriteClause.names

def accesses : Program → List (String × String)
  | .query q => (q.whereExpr.map Expr.accesses).getD [] ++
    q.returns.items.flatMap (fun item => item.expr.accesses) ++
      q.orderBy.flatMap fun item => item.expr.accesses
  | .statement stmt => stmt.accesses

/-- The columns of the result that the source names, with their expressions. -/
def aliases : Program → List (Expr × String)
  | .query q => q.returns.items.filterMap fun item => item.asName.map fun name => (item.expr, name)
  | .statement _ => []

end Program

/-- The numbered variables. -/
def helpers (stems : List String) : List (String × Nat) := stems.zipIdx.filter fun h => h.1 ≠ createStem

variable {stem : String}

theorem mem_helpers {stems : List String} {n : Nat} :
    (stem, n) ∈ helpers stems ↔ stems[n]? = some stem ∧ stem ≠ createStem := by
  rw [helpers, mem_filter, mk_mem_zipIdx_iff_getElem?, decide_eq_true_eq]

/-- What a variable is made up for. -/
inductive Purpose where
  | access (name prop : String)
  | helper (stem : String) (n : Nat)
deriving DecidableEq, Repr

def Purpose.var : Purpose → Variable
  | .access name prop => column (name, prop)
  | .helper stem n => ⟨LowerCtx.generatedName stem n⟩

def Program.purposes (p : Program) : List Purpose :=
  (p.accesses.map fun access => .access access.1 access.2) ++ (helpers p.stems).map fun h => .helper h.1 h.2

/-- No two purposes share a variable, none has that of a name in a pattern, and a column
of the result shares one with its own access only. -/
structure Distinct (p : Program) : Prop where
  purposes : ∀ a ∈ p.purposes, ∀ b ∈ p.purposes, a.var = b.var → a = b
  names : ∀ a ∈ p.purposes, ∀ name ∈ p.names, a.var ≠ ⟨name⟩
  aliases : ∀ item ∈ p.aliases, ∀ a ∈ p.purposes, a.var = ⟨item.2⟩ → ∃ name prop, a = .access name prop ∧
    item.1 = .property (.var name) prop

/-! ## When the names are apart -/

/-- The names of the source keep the variables apart. -/
structure NamesApart (p : Program) : Prop where
  -- no name extends another by what the property of the other begins with
  columns : ∀ name rest prop, ¬((name, rest ++ "_" ++ prop) ∈ p.accesses ∧ (name ++ "_" ++ rest, prop) ∈ p.accesses)
  columnNames : ∀ access ∈ p.accesses, access.1 ++ "_" ++ access.2 ∉ p.names
  columnHelpers : ∀ access ∈ p.accesses, ∀ h ∈ helpers p.stems,
    access.1 ++ "_" ++ access.2 ≠ "_" ++ h.1 ++ toString h.2
  helperNames : ∀ h ∈ helpers p.stems, "_" ++ h.1 ++ toString h.2 ∉ p.names
  -- the number of one helper of DELETE begins with the digit that ends the other's stem
  numbers : ∀ m n, ("del_p", m) ∈ helpers p.stems → ("del_p2", n) ∈ helpers p.stems → toString m ≠ "2" ++ toString n
  columnAliases : ∀ item ∈ p.aliases, ∀ access ∈ p.accesses, access.1 ++ "_" ++ access.2 = item.2 →
    item.1 = .property (.var access.1) access.2
  helperAliases : ∀ item ∈ p.aliases, ∀ h ∈ helpers p.stems, "_" ++ h.1 ++ toString h.2 ≠ item.2

theorem columnName_eq {a b c d : String} (h : columnName a b = columnName c d) :
    (a = c ∧ b = d) ∨ (∃ w, c = a ++ "_" ++ w ∧ b = w ++ "_" ++ d) ∨ ∃ w, a = c ++ "_" ++ w ∧ d = w ++ "_" ++ b := by
  have hlist : a.toList ++ '_' :: b.toList = c.toList ++ '_' :: d.toList := by
    have := congrArg String.toList h
    simpa [columnName, String.toList_append] using this
  have hword : ∀ {x y z : String}, (∃ l : List Char, z.toList = x.toList ++ '_' :: l ∧ y.toList = l) →
      z = x ++ "_" ++ y := by
    rintro x y z ⟨l, hz, rfl⟩
    apply String.ext
    simp [String.toList_append, hz]
  rcases append_eq_append_iff.mp hlist with ⟨l, hc, hb⟩ | ⟨l, ha, hd⟩
  · cases l with
    | nil =>
      rw [append_nil] at hc
      exact .inl ⟨String.ext hc.symm, String.ext (List.cons.inj hb).2⟩
    | cons x l =>
      obtain ⟨rfl, hrest⟩ := List.cons.inj hb
      refine .inr (.inl ⟨String.ofList l, ?_, ?_⟩)
      · exact hword ⟨l, hc, by simp⟩
      · apply String.ext
        rw [hrest]
        simp [String.toList_append]
  · cases l with
    | nil =>
      rw [append_nil] at ha
      exact .inl ⟨String.ext ha, String.ext (List.cons.inj hd).2.symm⟩
    | cons x l =>
      obtain ⟨rfl, hrest⟩ := List.cons.inj hd
      refine .inr (.inr ⟨String.ofList l, ?_, ?_⟩)
      · exact hword ⟨l, ha, by simp⟩
      · apply String.ext
        rw [hrest]
        simp [String.toList_append]

/-! ## Numbered names -/

theorem toString_injective {m n : Nat} (h : toString m = toString n) : m = n := by
  have hdigits : Nat.toDigits 10 m = Nat.toDigits 10 n := by
    have := congrArg String.toList h
    simpa using this
  rw [← Nat.ofDigitChars_ten_toDigits (n := m), hdigits, Nat.ofDigitChars_ten_toDigits]

/-- The stems of the names that the lowering makes up. -/
def stemNames : List String :=
  ["node", "rel", "set_old", "set_val", "remove_old", "del_p", "del_o", "del_s", "del_p2"]

theorem stem_prefix : ∀ s ∈ stemNames, ∀ t ∈ stemNames, s.toList <+: t.toList → s = t ∨ s = "del_p" ∧ t = "del_p2" := by
  decide

/-- Two numbered names are one where stem and number agree, or where the number of
`del_p` begins with a 2. -/
theorem generatedName_eq {s t : String} (hs : s ∈ stemNames) (ht : t ∈ stemNames) {m n : Nat}
    (h : LowerCtx.generatedName s m = LowerCtx.generatedName t n) :
    (s = t ∧ m = n) ∨ (s = "del_p" ∧ t = "del_p2" ∧ toString m = "2" ++ toString n) ∨
      (s = "del_p2" ∧ t = "del_p" ∧ toString n = "2" ++ toString m) := by
  have hlist : s.toList ++ (toString m).toList = t.toList ++ (toString n).toList := by
    have := congrArg String.toList h
    simpa [LowerCtx.generatedName, String.toList_append] using this
  have hsame : s = t → m = n := by
    rintro rfl
    exact toString_injective (String.ext (append_cancel_left hlist))
  -- the digit that the longer stem has is the first of the other's number
  have hdigit : ∀ {i j : Nat}, "del_p".toList ++ (toString i).toList = "del_p2".toList ++ (toString j).toList →
      toString i = "2" ++ toString j := by
    intro i j hij
    apply String.ext
    rw [String.toList_append]
    exact (append_right_inj "del_p".toList).mp hij
  have hprefix : s.toList <+: t.toList ++ (toString n).toList := hlist ▸ prefix_append _ _
  rcases prefix_or_prefix_of_prefix hprefix (prefix_append _ _) with hp | hp
  · rcases stem_prefix s hs t ht hp with heq | ⟨rfl, rfl⟩
    · exact .inl ⟨heq, hsame heq⟩
    · exact .inr (.inl ⟨rfl, rfl, hdigit hlist⟩)
  · rcases stem_prefix t ht s hs hp with heq | ⟨rfl, rfl⟩
    · exact .inl ⟨heq.symm, hsame heq.symm⟩
    · exact .inr (.inr ⟨rfl, rfl, hdigit hlist.symm⟩)

/-! ## When the variables are distinct -/

variable {p : Program}

theorem mem_purposes {a : Purpose} : a ∈ p.purposes ↔
    (∃ name prop, (name, prop) ∈ p.accesses ∧ a = .access name prop) ∨
      ∃ stem n, (stem, n) ∈ helpers p.stems ∧ a = .helper stem n := by
  rw [Program.purposes, mem_append]
  constructor
  · rintro (h | h)
    · obtain ⟨⟨name, prop⟩, hmem, rfl⟩ := mem_map.mp h
      exact .inl ⟨name, prop, hmem, rfl⟩
    · obtain ⟨⟨stem, n⟩, hmem, rfl⟩ := mem_map.mp h
      exact .inr ⟨stem, n, hmem, rfl⟩
  · rintro (⟨name, prop, hmem, rfl⟩ | ⟨stem, n, hmem, rfl⟩)
    · exact .inl (mem_map.mpr ⟨_, hmem, rfl⟩)
    · exact .inr (mem_map.mpr ⟨_, hmem, rfl⟩)

/-- A stem is that of CREATE or one of the fixed ones. -/
theorem stems_known (h : stem ∈ p.stems) : stem = createStem ∨ stem ∈ stemNames := by
  have hpattern : ∀ {pattern : Pattern}, stem ∈ pattern.stems → stem ∈ stemNames := by
    intro pattern h
    have hnode : ∀ {node : NodePattern}, stem ∈ node.stems → stem ∈ stemNames := by
      intro node h
      unfold NodePattern.stems at h
      split at h
      · rw [mem_singleton.mp h]
        decide
      · exact absurd h not_mem_nil
    rcases mem_append.mp h with h | h
    · exact hnode h
    obtain ⟨hop, _, h⟩ := mem_flatMap.mp h
    rcases mem_append.mp h with h | h
    · exact hnode h
    · unfold RelPattern.stems at h
      split at h
      · rw [mem_singleton.mp h]
        decide
      · exact absurd h not_mem_nil
  cases p with
  | query q => exact .inr (hpattern h)
  | statement stmt =>
    rcases mem_append.mp h with h | h
    · cases hp : stmt.pattern with
      | none =>
        rw [hp] at h
        exact absurd h not_mem_nil
      | some pattern =>
        rw [hp] at h
        exact .inr (hpattern h)
    obtain ⟨write, _, h⟩ := mem_flatMap.mp h
    have hsub : ∀ {l : List String}, l ⊆ stemNames → stem ∈ l → stem = createStem ∨ stem ∈ stemNames :=
      fun hl h => .inr (hl h)
    cases write with
    | create pattern => exact .inl (eq_of_mem_replicate h)
    | setProperty name property value => exact hsub (l := ["set_old", "set_val"]) (by decide) h
    | setLabel name label => exact absurd h not_mem_nil
    | delete names detach =>
      obtain ⟨name, _, h⟩ := mem_flatMap.mp h
      split at h
      · exact absurd h not_mem_nil
      · exact hsub (by decide) h
    | removeProperty name property => exact hsub (l := ["remove_old"]) (by decide) h
    | removeLabel name label => exact absurd h not_mem_nil

theorem helper_stem {n : Nat} (h : (stem, n) ∈ helpers p.stems) : stem ∈ stemNames := by
  obtain ⟨hat, hne⟩ := mem_helpers.mp h
  exact (stems_known (mem_of_getElem? hat)).resolve_left hne

theorem distinct_of_namesApart (h : NamesApart p) : Distinct p where
  purposes := by
    intro a ha b hb heq
    rcases mem_purposes.mp ha with ⟨name, prop, hx, rfl⟩ | ⟨s, m, hx, rfl⟩
    · rcases mem_purposes.mp hb with ⟨name', prop', hy, rfl⟩ | ⟨t, n, hy, rfl⟩
      · have hname : columnName name prop = columnName name' prop' := congrArg Variable.name heq
        rcases columnName_eq hname with ⟨rfl, rfl⟩ | ⟨w, rfl, rfl⟩ | ⟨w, rfl, rfl⟩
        · rfl
        · exact absurd ⟨hx, hy⟩ (h.columns name w prop')
        · exact absurd ⟨hy, hx⟩ (h.columns name' w prop)
      · exact absurd (congrArg Variable.name heq) (h.columnHelpers _ hx _ hy)
    · rcases mem_purposes.mp hb with ⟨name', prop', hy, rfl⟩ | ⟨t, n, hy, rfl⟩
      · exact absurd (congrArg Variable.name heq).symm (h.columnHelpers _ hy _ hx)
      · have hname := congrArg Variable.name heq
        rcases generatedName_eq (helper_stem hx) (helper_stem hy) hname with
          ⟨rfl, rfl⟩ | ⟨rfl, rfl, hn⟩ | ⟨rfl, rfl, hn⟩
        · rfl
        · exact absurd hn (h.numbers m n hx hy)
        · exact absurd hn (h.numbers n m hy hx)
  names := by
    intro a ha name hname heq
    rcases mem_purposes.mp ha with ⟨name', prop, hx, rfl⟩ | ⟨stem, n, hx, rfl⟩
    · have heq : name' ++ "_" ++ prop = name := congrArg Variable.name heq
      exact h.columnNames _ hx (heq ▸ hname)
    · have heq : "_" ++ stem ++ toString n = name := congrArg Variable.name heq
      exact h.helperNames _ hx (heq ▸ hname)
  aliases := by
    intro item hitem a ha heq
    rcases mem_purposes.mp ha with ⟨name, prop, hx, rfl⟩ | ⟨stem, n, hx, rfl⟩
    · exact ⟨name, prop, rfl, h.columnAliases item hitem _ hx (congrArg Variable.name heq)⟩
    · exact absurd (congrArg Variable.name heq) (h.helperAliases item hitem _ hx)

/-- Each clause of `NamesApart` is about two purposes. -/
theorem namesApart_of_distinct (h : Distinct p) : NamesApart p where
  columns := by
    rintro name rest prop ⟨hx, hy⟩
    have ha := mem_purposes.mpr (.inl ⟨name, rest ++ "_" ++ prop, hx, rfl⟩)
    have hb := mem_purposes.mpr (.inl ⟨name ++ "_" ++ rest, prop, hy, rfl⟩)
    have heq := h.purposes _ ha _ hb (by simp [Purpose.var, column, columnName, String.append_assoc])
    -- a name is not its own extension
    have hlen := congrArg String.length (Purpose.access.inj heq).1
    simp only [String.length_append] at hlen
    have : "_".length = 1 := by decide
    omega
  columnNames := by
    intro access hx hname
    exact h.names _ (mem_purposes.mpr (.inl ⟨access.1, access.2, hx, rfl⟩)) _ hname rfl
  columnHelpers := by
    intro access hx helper hy heq
    have ha := mem_purposes.mpr (.inl ⟨access.1, access.2, hx, rfl⟩)
    have hb := mem_purposes.mpr (.inr ⟨helper.1, helper.2, hy, rfl⟩)
    have hsame : (Purpose.access access.1 access.2).var = (Purpose.helper helper.1 helper.2).var :=
      congrArg Variable.mk heq
    cases h.purposes _ ha _ hb hsame
  helperNames := by
    intro helper hx hname
    exact h.names _ (mem_purposes.mpr (.inr ⟨helper.1, helper.2, hx, rfl⟩)) _ hname rfl
  numbers := by
    intro m n hx hy heq
    have ha := mem_purposes.mpr (.inr ⟨_, m, hx, rfl⟩)
    have hb := mem_purposes.mpr (.inr ⟨_, n, hy, rfl⟩)
    have hsame : (Purpose.helper "del_p" m).var = (Purpose.helper "del_p2" n).var := by
      apply congrArg Variable.mk
      rw [LowerCtx.generatedName, LowerCtx.generatedName, heq, ← String.append_assoc]
      rfl
    exact absurd (Purpose.helper.inj (h.purposes _ ha _ hb hsame)).1 (by decide)
  columnAliases := by
    intro item hitem access hx heq
    have ha := mem_purposes.mpr (.inl ⟨access.1, access.2, hx, rfl⟩)
    obtain ⟨name, prop, hsame, hitem'⟩ := h.aliases item hitem _ ha (congrArg Variable.mk heq)
    cases hsame
    exact hitem'
  helperAliases := by
    intro item hitem helper hx heq
    have ha := mem_purposes.mpr (.inr ⟨helper.1, helper.2, hx, rfl⟩)
    obtain ⟨name, prop, hsame, _⟩ := h.aliases item hitem _ ha (congrArg Variable.mk heq)
    cases hsame

theorem distinct_iff_namesApart (p : Program) : Distinct p ↔ NamesApart p :=
  ⟨namesApart_of_distinct, distinct_of_namesApart⟩

end Cypher

end Nova
