import OntologyPrep.Sort.Declared
import OntologyPrep.Sort.Shelf
import OntologyPrep.Term.Variables

/-!
# Quantifying over sorts

`Term.restrictTypes` binds the free variables of a formula by an outer universal quantifier and then
guards every quantified variable with what the arguments that it fills are declared to be: a
universal formula holds of all values that pass the guards, an existential one of some such value.
The guards are `(instance v C)` and `(subclass v C)` for the most specific ones of the declared
classes.

A `Term.Place` is an argument of an application that a variable fills.
-/

namespace OntologyPrep

/-- a variable as the argument of a relation -/
structure Term.Place where
  name : String
  relation : String
  position : Nat
  deriving DecidableEq, Repr

namespace Term

mutual

/-- the arguments that variables fill in an application of a symbol and in the lists among its
arguments, from left to right -/
def places : Term → List Place
  | .list (.atom relation :: args) => placesFrom relation 1 args
  | _ => []

/-- the arguments that variables fill, of those from a position on -/
def placesFrom (relation : String) (position : Nat) : List Term → List Place
  | [] => []
  | .atom a :: args =>
    (if Name.isVariable a then [⟨a, relation, position⟩] else []) ++
      placesFrom relation (position + 1) args
  | .list items :: args => places (.list items) ++ placesFrom relation (position + 1) args

end

/-- the formula under a universal quantifier for its free variables, if it has any -/
def closeUniversally (t : Term) : Term :=
  match t.freeVariables with
  | [] => t
  | names => .quantified Quantifier.all.name names t

end Term

/-- what restricting carries along -/
structure Restricting where
  shelf : Shelf
  cache : TypeCache

namespace Restricting

/-- the variables of a quantified formula put on the shelf -/
def enter (names : List String) (q : Quantifier) : StateM Restricting Unit := fun r =>
  ((), { r with shelf := r.shelf.push names q })

/-- the given number of variables taken off the shelf, the outermost one first -/
def leave (count : Nat) : StateM Restricting (List Frame) := fun r =>
  let popped := r.shelf.pop (r.shelf.depth - count)
  (popped.1, { r with shelf := popped.2 })

/-- the type declared for a place put on the shelf -/
def note (kb : KnowledgeBase) (p : Term.Place) : StateM Restricting Unit := fun r =>
  let found := kb.typeOf p.relation p.position r.cache
  match found.1 with
  | some type => ((), ⟨(r.shelf.constrain p.name type).getD r.shelf, found.2⟩)
  | none => ((), { r with cache := found.2 })

end Restricting

namespace Frame

/-- the guards of a bound variable -/
def guards (kb : KnowledgeBase) (f : Frame) : List Term :=
  (kb.winnow f.constraints.instances).map
      (fun c => .app "instance" [.atom f.name, .atom c]) ++
    (kb.winnow f.constraints.subclasses).map
      (fun c => .app "subclass" [.atom f.name, .atom c])

end Frame

namespace Term

/-- a formula behind guards under a quantifier: implied by them, or together with them -/
def guarded (q : Quantifier) (names : List String) (guards : List Term) (body : Term) : Term :=
  match q, guards with
  | _, [] => .quantified q.name names body
  | .all, [g] => .quantified q.name names (.implies g body)
  | .all, gs => .quantified q.name names (.implies (.conj gs) body)
  | .any, gs =>
    .quantified q.name names
      (.conj (gs ++ if body.operator? = some .conj then body.args else [body]))

/-- the guards put into every quantified formula outside of atomic ones -/
def restrict (kb : KnowledgeBase) : Term → StateM Restricting Term
  | .atom a => pure (.atom a)
  | .list items =>
    match _h : (Term.list items).binder? with
    | some b => do
      Restricting.enter b.names b.quantifier
      let body ← b.body.restrict kb
      let frames ← Restricting.leave b.names.length
      return guarded b.quantifier b.names (frames.flatMap fun f => f.guards kb) body
    | none =>
      if (Term.list items).head?.any fun h => !Name.isOperator h then do
        (Term.list items).places.forM (Restricting.note kb)
        return .list items
      else return .list (← items.mapM (restrict kb))
termination_by t => sizeOf t
decreasing_by
  · exact sizeOf_body_lt ‹_›
  · decreasing_tactic

/-- a formula with its quantifiers, the implied outer one included, restricted to the declared
types -/
def restrictTypes (kb : KnowledgeBase) (t : Term) : StateM TypeCache Term := fun cache =>
  let r := t.closeUniversally.restrict kb ⟨[], cache⟩
  (r.1, r.2.cache)

end Term

end OntologyPrep
