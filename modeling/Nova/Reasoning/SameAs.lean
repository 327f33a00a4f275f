import Nova.Core.Term

/-!
# Classes of equal terms

`SameAsTracker`: the classes of terms that `owl:sameAs` pairs put together, found
by union-find with path compression and frozen. A map is its list of entries; the
order in which a hash map would list them is left open by the source, and is here
the order of insertion.

A chain of parents is at most as long as the map, which bounds the descent of
`find`.
-/

namespace Nova.Reasoning

open Nova

/-- `HashMap::insert`. -/
def insertEntry {α : Type} (k : Term) (v : α) : List (Term × α) → List (Term × α)
  | [] => [(k, v)]
  | e :: m => if e.1 = k then (k, v) :: m else e :: insertEntry k v m

/-- `entry(k).or_insert_with(..)`. -/
def orInsertEntry {α : Type} (k : Term) (v : α) (m : List (Term × α)) : List (Term × α) :=
  if (m.lookup k).isSome then m else insertEntry k v m

/-- `SameAsTracker`: the representative of every term that occurs in a pair, and
the members of the classes by representative. -/
structure SameAsTracker where
  canonical : List (Term × Term)
  members : List (Term × List Term)

namespace SameAsTracker

def empty : SameAsTracker := ⟨[], []⟩

def isEmpty (t : SameAsTracker) : Bool := t.canonical.isEmpty

/-- The inner `find` of `build`: the root of a term, with the path compressed. -/
def find : Nat → List (Term × Term) → Term → Term × List (Term × Term)
  | 0, parent, t => (t, parent)
  | depth + 1, parent, t =>
    let p := (parent.lookup t).getD t
    if p = t then (t, parent)
    else
      let (root, parent) := find depth parent p
      (root, insertEntry t root parent)

/-- One pair of the second loop of `build`. -/
def unite (parent : List (Term × Term)) (pair : Term × Term) : List (Term × Term) :=
  let (ra, parent) := find parent.length parent pair.1
  let (rb, parent) := find parent.length parent pair.2
  if ra = rb then parent else insertEntry ra rb parent

/-- One key of the loop that reads off the representatives. -/
def represent (st : List (Term × Term) × List (Term × Term)) (k : Term) :
    List (Term × Term) × List (Term × Term) :=
  let (root, parent) := find st.1.length st.1 k
  (parent, insertEntry k root st.2)

def build (pairs : List (Term × Term)) : SameAsTracker :=
  if pairs.isEmpty then empty
  else
    let parent := pairs.foldl (fun m pair => orInsertEntry pair.2 pair.2 (orInsertEntry pair.1 pair.1 m)) []
    let parent := pairs.foldl unite parent
    let canonical := ((parent.map Prod.fst).foldl represent (parent, [])).2
    { canonical
      members := canonical.foldl (fun m e =>
        insertEntry e.2 ((m.lookup e.2).getD [] ++ [e.1]) m) [] }

def canonicalize (t : SameAsTracker) (term : Term) : Term := (t.canonical.lookup term).getD term

def classMembers (t : SameAsTracker) (term : Term) : List Term :=
  match t.canonical.lookup term with
  | some root => (t.members.lookup root).getD [root]
  | none => [term]

@[simp] theorem build_nil : build [] = empty := rfl

end SameAsTracker

end Nova.Reasoning
