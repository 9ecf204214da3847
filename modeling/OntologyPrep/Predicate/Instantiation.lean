import OntologyPrep.Arity
import OntologyPrep.Predicate.Binding
import OntologyPrep.Predicate.Join
import OntologyPrep.Predicate.Simplification

/-!
# Replacing predicate variables by relations

A formula in which some variable is applied is replaced by the formulas in which every such variable
has become a relation of the knowledge base.  The joins of all variables are worked through, the
smallest one first; a formula carries the values of its variables along, so that only rows that agree
with them are used.  Literals that hold for these values are simplified away, and a formula with a
wrong number of arguments is dropped.
-/

namespace OntologyPrep

/-- why a formula has no instances -/
inductive Rejection where
  /-- nothing is known that the applied variable could be -/
  | noValue (name : String)
  /-- no combination of values is left -/
  | noneLeft
  deriving DecidableEq, Repr

/-- the cause in words -/
def Rejection.message : Rejection → String
  | noValue name => "no instantiation found for predicate variable " ++ name
  | noneLeft => "no predicate variable instantiation survived joining and arity checking"

/-- what becomes of a formula -/
inductive Outcome where
  | instantiated (terms : List Term)
  /-- no variable is applied -/
  | notApplicable
  | rejected (reason : Rejection)
  deriving DecidableEq, Repr

/-! ## what holds -/

namespace Literal

/-- the literal with values for variables -/
def assign (l : Literal) (values : Bindings) : Term :=
  values.toList.foldl (fun t p => t.substitute p.1 p.2) l.toTerm

end Literal

namespace KnowledgeBase

/-- the term is a literal with an answer -/
def holds (kb : KnowledgeBase) (t : Term) : Bool :=
  (Literal.ofTerm? t).any fun l => !(kb.ask l).isEmpty

/-- those literals that have no variables left and hold, each once -/
def confirmed (kb : KnowledgeBase) (literals : List Literal) (values : Bindings) : List Term :=
  (Distinct.ofList ((literals.map fun l => l.assign values).filter fun t =>
    !t.containsVariable)).filter kb.holds

end KnowledgeBase

/-! ## instances -/

/-- a formula in which some variables have got their values -/
structure Instance where
  term : Term
  values : Bindings

namespace Instance

/-- the value in the place of the variable, unless that has one -/
def assign (i : Instance) (name : String) (value : Term) : Instance :=
  if i.values.contains name then i
  else ⟨i.term.assign name value, i.values.insert name value⟩

/-- the values of a row in the places of their variables, and what holds for them left out -/
def extend (kb : KnowledgeBase) (literals : List Literal) (i : Instance) (row : Bindings) :
    Instance :=
  let i := row.toList.foldl (fun i p => i.assign p.1 p.2) i
  { i with term := i.term.simplify (kb.confirmed literals i.values) }

/-- one more instance, unless there is one with the same term -/
def addNew (found : List Instance) (i : Instance) : List Instance :=
  if found.any fun j => j.term = i.term then found else found ++ [i]

/-- the instances of one instance that the rows of a join lead to -/
def successors (kb : KnowledgeBase) (literals : List Literal) (rows : List Bindings)
    (i : Instance) : List Instance :=
  ((rows.filter fun row => Bindings.agrees i.values row).map (i.extend kb literals)).filter
    fun j => (j.term.checkArity kb.valence).isOk

/-- the instances after one join -/
def step (kb : KnowledgeBase) (literals : List Literal) (rows : List Bindings)
    (found : List Instance) : List Instance :=
  (found.flatMap (successors kb literals rows)).foldl addNew []

/-- the instances after some joins; `literals` are the questions of the joins before -/
def run (kb : KnowledgeBase) : List Join → List Literal → List Instance → List Instance
  | [], _, found => found
  | j :: js, literals, found =>
    let literals := literals ++ j.used
    run kb js literals (step kb literals j.rows found)

end Instance

/-! ## formulas -/

/-- the join for a variable; an applied variable must have one -/
def Join.ofVariable (kb : KnowledgeBase) (form : ClausalForm) (name : String)
    (use : PredicateUse) : Except Rejection (Option Join) :=
  match Join.ofTemplates? kb name (form.templates kb name use) with
  | some j => .ok (some j)
  | none => if use.isHead then .error (.noValue name) else .ok none

namespace Term

/-- the joins for the variables of a formula, smaller ones first -/
def joins (kb : KnowledgeBase) (form : ClausalForm) (vars : PredicateVariables) :
    Except Rejection (List Join) := do
  let found ← vars.toList.mapM fun v => Join.ofVariable kb form v.1 v.2
  return (found.filterMap id).mergeSort fun i j => i.rows.length ≤ j.rows.length

/-- the instances of a formula in clausal form -/
def instances (kb : KnowledgeBase) (vars : PredicateVariables) (t : Term) (form : ClausalForm) :
    Outcome :=
  match joins kb form vars with
  | .error reason => .rejected reason
  | .ok js =>
    match Instance.run kb js [] [⟨t, ∅⟩] with
    | [] => .rejected .noneLeft
    | found => .instantiated (found.map Instance.term)

/-- some variable is applied in the formula, and it counts as a predicate variable -/
def hasPredicateVariable (vars : PredicateVariables) (t : Term) : Bool :=
  t.hasOperatorHead && t.hasVariableHead && vars.toList.any fun v => v.2.isHead

/-- the formulas that the formula stands for when its predicate variables are relations -/
def instantiatePredicates (kb : KnowledgeBase) (t : Term) : StateM Supply Outcome :=
  let vars := t.predicateVariables kb
  if t.hasPredicateVariable vars then return t.instances kb vars (← ClausalForm.ofTerm t)
  else pure .notApplicable

end Term

end OntologyPrep
