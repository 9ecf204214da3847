import OntologyPrep.Term.Basic

/-!
# Formulas without arrows

* `Term.equivalencesOut`   `(<=> a b)` becomes `(and (=> a b) (=> b a))`;
* `Term.implicationsOut`   `(=> a b)` becomes `(or (not a) b)`.

Both work from the inside out and leave an arrow with any other number of arguments alone.
-/

namespace OntologyPrep.Term

/-- an equivalence of two formulas as two implications -/
def equivalenceOut : Term → Term
  | .list [.atom "<=>", a, b] => .conj [.implies a b, .implies b a]
  | t => t

/-- an implication as a disjunction -/
def implicationOut : Term → Term
  | .list [.atom "=>", a, b] => .disj [.neg a, b]
  | t => t

/-- every equivalence as two implications -/
def equivalencesOut : Term → Term
  | .atom a => .atom a
  | .list items => equivalenceOut (.list (items.map equivalencesOut))

/-- every implication as a disjunction -/
def implicationsOut : Term → Term
  | .atom a => .atom a
  | .list items => implicationOut (.list (items.map implicationsOut))

theorem equivalencesOut_list (xs : List Term) :
    (list xs).equivalencesOut = equivalenceOut (.list (xs.map equivalencesOut)) := by
  rw [equivalencesOut]

theorem implicationsOut_list (xs : List Term) :
    (list xs).implicationsOut = implicationOut (.list (xs.map implicationsOut)) := by
  rw [implicationsOut]

end OntologyPrep.Term
