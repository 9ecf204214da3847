import OntologyPrep.Sort.Declared
import OntologyPrep.Sort.Shelf

/-!
# The types of one variable

`Term.typesOf` collects what a variable must be according to every application that it is an
argument of, wherever the variable is bound.  A functional term that the variable is equal to, an
instance of or a subclass of contributes the declared type of its values.
-/

namespace OntologyPrep

/-- the constraints found so far, and the cache -/
structure Inferring where
  found : Constraints
  cache : TypeCache

namespace Inferring

/-- the type declared for an argument -/
def typeOf (kb : KnowledgeBase) (relation : String) (position : Nat) :
    StateM Inferring (Option String) := fun s =>
  let r := kb.typeOf relation position s.cache
  (r.1, { s with cache := r.2 })

/-- one more constraint -/
def add (type : String) : StateM Inferring Unit := fun s =>
  ((), { s with found := s.found.add type })

/-- the type of the values of a functional term -/
def typeOfValue (kb : KnowledgeBase) (t : Term) : StateM Inferring (Option String) :=
  match t.head? with
  | some f => typeOf kb f 0
  | none => pure none

/-- the type of the values of a functional term as a constraint -/
def addValueType (kb : KnowledgeBase) (t : Term) : StateM Inferring Unit := do
  match ← typeOfValue kb t with
  | some type => add type
  | none => pure ()

/-- the class whose subclasses are the values of a functional term, as a constraint with an ending -/
def addValueClass (kb : KnowledgeBase) (t : Term) (ending : String) : StateM Inferring Unit := do
  match (← typeOfValue kb t).bind subclassBase? with
  | some base => add (base ++ ending)
  | none => pure ()

/-- the types declared for the arguments, from a position on, that the variable fills -/
def addArguments (kb : KnowledgeBase) (name relation : String) (position : Nat) :
    List Term → StateM Inferring Unit
  | [] => pure ()
  | t :: ts => do
    if t = .atom name then
      match ← typeOf kb relation position with
      | some type => add type
      | none => pure ()
    addArguments kb name relation (position + 1) ts

/-- what an application says about a variable among its arguments -/
def addApplication (kb : KnowledgeBase) (name relation : String) (args : List Term) :
    StateM Inferring Unit :=
  let self : Term := .atom name
  match relation, args with
  | "equal", [a, b] =>
    if a = self then addValueType kb b
    else if b = self then addValueType kb a
    else addArguments kb name relation 1 args
  | "instance", [a, cls] =>
    if a = self && cls.isList then addValueClass kb cls ""
    else addArguments kb name relation 1 args
  | "subclass", [a, cls] =>
    if a = self && cls.isList then addValueClass kb cls "+"
    else addArguments kb name relation 1 args
  | _, _ => addArguments kb name relation 1 args

/-- what a term says about a variable, applications before what they are applied to -/
def addTerm (kb : KnowledgeBase) (name : String) : Term → StateM Inferring Unit
  | .atom _ => pure ()
  | .list items =>
    match _h : (Term.list items).binder? with
    | some b => addTerm kb name b.body
    | none => do
      match (Term.list items).head? with
      | some h => if !Name.isOperator h then addApplication kb name h (items.drop 1)
      | none => pure ()
      let _ ← items.mapM (addTerm kb name)
termination_by t => sizeOf t
decreasing_by
  · exact Term.sizeOf_body_lt ‹_›
  · decreasing_tactic

end Inferring

/-- the most specific types that a variable must have in a formula -/
def Term.typesOf (kb : KnowledgeBase) (name : String) (t : Term) :
    StateM TypeCache Constraints := fun cache =>
  let r := Inferring.addTerm kb name t ⟨.empty, cache⟩
  (⟨kb.winnow r.2.found.instances, kb.winnow r.2.found.subclasses⟩, r.2.cache)

end OntologyPrep
