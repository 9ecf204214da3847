import OntologyPrep.Knowledge.Hierarchy
import OntologyPrep.Knowledge.Literal

/-!
# Asking a knowledge base

* `KnowledgeBase.having`   the statements that have given atoms at given positions;
* `KnowledgeBase.ask`      the statements that a literal matches, in the order of telling; for a
                           literal about the instances of a class, those of the classes below it too,
                           as statements about the class itself, sorted by individual.
-/

namespace OntologyPrep.KnowledgeBase

/-- the statements with the given atoms at the given positions; none if nothing is given -/
def having (kb : KnowledgeBase) : List (Nat × String) → List Term
  | [] => []
  | (position, name) :: rest =>
    (kb.statements position name).filter fun t =>
      rest.all fun r => t.atomAt? r.1 = some r.2

/-- the statements that the literal itself matches -/
def matching (kb : KnowledgeBase) (l : Literal) : List Term :=
  (kb.statements 0 l.relation).filter l.accepts

/-- the class that a literal asks the instances of -/
def classAsked? (l : Literal) : Option String :=
  match l.relation, l.args with
  | "instance", [_, .atom cls] => if Name.isVariable cls then none else some cls
  | _, _ => none

/-- the statements about instances of a class that the literal matches -/
def inferred (kb : KnowledgeBase) (l : Literal) (cls : String) : List Term :=
  ((kb.instancesOf cls).map fun item => Term.app "instance" [.atom item, .atom cls]).filter l.accepts

/-- all answers to a literal -/
def ask (kb : KnowledgeBase) (l : Literal) : List Term :=
  let told := kb.matching l
  match classAsked? l with
  | some cls => told ++ (kb.inferred l cls).filter fun t => !told.contains t
  | none => told

end OntologyPrep.KnowledgeBase
