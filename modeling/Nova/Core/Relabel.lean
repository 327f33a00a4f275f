import Nova.Core.Term
import Mathlib.Data.Finset.Union
import Mathlib.Data.Fintype.EquivFin

/-!
# Renaming blank nodes

Two documents, or two stores, are the same data if one comes from the other by
renaming its blank nodes one to one. A renaming acts on the labels that occur:
`relabel_congr` and `labelsOf_relabel`.
-/

namespace Nova

open Finset

section Relabel

variable (ρ : BlankNode → BlankNode)

def Subject.relabel : Subject → Subject
  | .namedNode n => .namedNode n
  | .blankNode b => .blankNode (ρ b)

def Term.relabel : Term → Term
  | .namedNode n => .namedNode n
  | .blankNode b => .blankNode (ρ b)
  | .literal l => .literal l
  | .triple s p o => .triple (s.relabel ρ) p o.relabel

def GraphName.relabel : GraphName → GraphName
  | .defaultGraph => .defaultGraph
  | .namedNode n => .namedNode n
  | .blankNode b => .blankNode (ρ b)

def Quad.relabel (q : Quad) : Quad :=
  ⟨q.subject.relabel ρ, q.predicate, q.object.relabel ρ, q.graphName.relabel ρ⟩

end Relabel

/-- There is always another label. -/
instance : Infinite BlankNode :=
  Infinite.of_injective BlankNode.mk fun _ _ h => BlankNode.mk.inj h

/-! ## The labels of a quad -/

def Subject.labels : Subject → Finset BlankNode
  | .namedNode _ => ∅
  | .blankNode b => {b}

def Term.labels : Term → Finset BlankNode
  | .namedNode _ => ∅
  | .blankNode b => {b}
  | .literal _ => ∅
  | .triple s _ o => s.labels ∪ o.labels

def GraphName.labels : GraphName → Finset BlankNode
  | .defaultGraph => ∅
  | .namedNode _ => ∅
  | .blankNode b => {b}

def Quad.labels (q : Quad) : Finset BlankNode := q.subject.labels ∪ q.object.labels ∪ q.graphName.labels

def labelsOf (quads : Finset Quad) : Finset BlankNode := quads.biUnion Quad.labels

section Labels

variable {ρ ρ' : BlankNode → BlankNode} {quads quads' : Finset Quad}

theorem Subject.relabel_congr {s : Subject} (h : ∀ b ∈ s.labels, ρ b = ρ' b) : s.relabel ρ = s.relabel ρ' := by
  cases s with
  | namedNode n => rfl
  | blankNode b => rw [relabel, relabel, h b (mem_singleton_self b)]

theorem Term.relabel_congr {t : Term} (h : ∀ b ∈ t.labels, ρ b = ρ' b) : t.relabel ρ = t.relabel ρ' := by
  induction t with
  | namedNode n => rfl
  | blankNode b => rw [relabel, relabel, h b (mem_singleton_self b)]
  | literal l => rfl
  | triple s p o ih =>
    have hs := Subject.relabel_congr fun b hb => h b (mem_union_left _ hb)
    have ho := ih fun b hb => h b (mem_union_right _ hb)
    rw [relabel, relabel, hs, ho]

theorem GraphName.relabel_congr {g : GraphName} (h : ∀ b ∈ g.labels, ρ b = ρ' b) : g.relabel ρ = g.relabel ρ' := by
  cases g with
  | defaultGraph => rfl
  | namedNode n => rfl
  | blankNode b => rw [relabel, relabel, h b (mem_singleton_self b)]

theorem Quad.relabel_congr {q : Quad} (h : ∀ b ∈ q.labels, ρ b = ρ' b) : q.relabel ρ = q.relabel ρ' := by
  have hs := Subject.relabel_congr fun b hb => h b (mem_union_left _ (mem_union_left _ hb))
  have ho := Term.relabel_congr fun b hb => h b (mem_union_left _ (mem_union_right _ hb))
  have hg := GraphName.relabel_congr fun b hb => h b (mem_union_right _ hb)
  rw [relabel, relabel, hs, ho, hg]

theorem Subject.labels_relabel (s : Subject) : (s.relabel ρ).labels = s.labels.image ρ := by
  cases s <;> simp [relabel, labels]

theorem Term.labels_relabel (t : Term) : (t.relabel ρ).labels = t.labels.image ρ := by
  induction t with
  | namedNode n => rfl
  | blankNode b => simp [relabel, labels]
  | literal l => rfl
  | triple s p o ih => rw [relabel, labels, labels, Subject.labels_relabel, ih, image_union]

theorem GraphName.labels_relabel (g : GraphName) : (g.relabel ρ).labels = g.labels.image ρ := by
  cases g <;> simp [relabel, labels]

theorem Quad.labels_relabel (q : Quad) : (q.relabel ρ).labels = q.labels.image ρ := by
  simp only [relabel, labels, Subject.labels_relabel, Term.labels_relabel, GraphName.labels_relabel,
    image_union]

theorem Subject.relabel_id (s : Subject) : s.relabel id = s := by
  cases s <;> rfl

theorem Term.relabel_id (t : Term) : t.relabel id = t := by
  induction t with
  | namedNode n => rfl
  | blankNode b => rfl
  | literal l => rfl
  | triple s p o ih => rw [relabel, Subject.relabel_id, ih]

theorem GraphName.relabel_id (g : GraphName) : g.relabel id = g := by
  cases g <;> rfl

theorem Quad.relabel_id (q : Quad) : q.relabel id = q := by
  rw [relabel, Subject.relabel_id, Term.relabel_id, GraphName.relabel_id]

theorem labelsOf_union : labelsOf (quads ∪ quads') = labelsOf quads ∪ labelsOf quads' :=
  union_biUnion

theorem labelsOf_relabel : labelsOf (quads.image (Quad.relabel ρ)) = (labelsOf quads).image ρ := by
  simp only [labelsOf, image_biUnion, biUnion_image, Quad.labels_relabel]

theorem image_relabel_of_empty (h : labelsOf quads = ∅) : quads.image (Quad.relabel ρ) = quads := by
  have hsame : ∀ q ∈ quads, q.relabel ρ = q := by
    intro q hq
    refine (Quad.relabel_congr fun b hb => ?_).trans q.relabel_id
    have hin : b ∈ labelsOf quads := mem_biUnion.mpr ⟨q, hq, hb⟩
    rw [h] at hin
    cases hin
  rw [image_congr hsame, image_id']

end Labels

end Nova
