import OntologyPrep.Term.Basic

/-!
# The order of terms

Every atom comes before every list; atoms are ordered by their spelling, and lists element by
element, a shorter list before each of its extensions.
-/

namespace OntologyPrep.Term

mutual

/-- the order of two terms -/
def cmp : Term → Term → Ordering
  | .atom a, .atom b => compare a b
  | .atom _, .list _ => .lt
  | .list _, .atom _ => .gt
  | .list xs, .list ys => cmpList xs ys

/-- the lexicographic order of two lists of terms -/
def cmpList : List Term → List Term → Ordering
  | [], [] => .eq
  | [], _ :: _ => .lt
  | _ :: _, [] => .gt
  | x :: xs, y :: ys => (cmp x y).then (cmpList xs ys)

end

instance : Ord Term := ⟨cmp⟩

end OntologyPrep.Term
