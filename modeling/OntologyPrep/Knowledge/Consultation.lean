import OntologyPrep.Knowledge.Query
import OntologyPrep.Knowledge.Signature

/-!
# Consulting a knowledge base

A `Consulted` knowledge base keeps the superclasses that have been found in it.  A question about
classes looks there first and searches only for those of a class that has not been looked up before;
a new statement about subclasses makes it forget all of them.

* `Consulted.tell`             one more term, with the answer whether it is new;
* `Consulted.superclasses`     what all the other questions look up, some of them several times;
* `Consulted.isSubclass`, `Consulted.isInstance`, `Consulted.instancesOf`, `Consulted.ask`,
  `Consulted.valence`, `Consulted.signature?`   the questions whose answers depend on the classes.
-/

namespace OntologyPrep

/-- the term is a statement that puts a class under another one -/
def Term.isSubclassStatement (t : Term) : Bool :=
  t.isStatement && t.head? = some "subclass" && (t.atomAt? 1).isSome && (t.atomAt? 2).isSome

/-- a knowledge base and the superclasses that have been found in it -/
structure Consulted where
  base : KnowledgeBase
  found : Std.TreeMap String (List String)

namespace Consulted

/-- a knowledge base that nothing has been looked up in -/
def start (kb : KnowledgeBase) : Consulted := ⟨kb, ∅⟩

/-- what has been told -/
def knowledge : StateM Consulted KnowledgeBase := fun s => (s.base, s)

/-- one more term told; the answer is that it is new -/
def tell (t : Term) : StateM Consulted Bool := fun s =>
  match s.base.knows t with
  | true => (false, s)
  | false => (true, ⟨s.base.tell t, if t.isSubclassStatement then ∅ else s.found⟩)

/-- the classes above a class, found before or searched for now -/
def superclasses (cls : String) : StateM Consulted (List String) := fun s =>
  match s.found[cls]? with
  | some classes => (classes, s)
  | none =>
    let classes := s.base.superclasses cls
    (classes, { s with found := s.found.insert cls classes })

/-- the first class is below the second and is not the second -/
def isSubclass (sub sup : String) : StateM Consulted Bool := do
  if sub = sup then return false
  else return (← superclasses sub).contains sup

/-- the individual is an instance of the class, or of a class below it -/
def isInstance (item cls : String) : StateM Consulted Bool := do
  ((← knowledge).classesOf item).anyM fun c => if c = cls then pure true else isSubclass c cls

/-- all instances of a class, sorted -/
def instancesOf (cls : String) : StateM Consulted (List String) := do
  (← knowledge).classes.keys.filterM fun item => isInstance item cls

/-- all answers to a literal -/
def ask (l : Literal) : StateM Consulted (List Term) := do
  let told := (← knowledge).matching l
  match KnowledgeBase.classAsked? l with
  | some cls =>
    let derived := (← instancesOf cls).map fun item => Term.app "instance" [.atom item, .atom cls]
    return told ++ (derived.filter l.accepts).filter fun t => !told.contains t
  | none => return told

/-- the count that the classes of a relation imply: each class, then its superclasses -/
def inheritedValence? (relation : String) : StateM Consulted (Option Int) := do
  ((← knowledge).classesOf relation).findSomeM? fun c =>
    return (c :: (← superclasses c)).findSome? (KnowledgeBase.listed? KnowledgeBase.arityClasses)

/-- the number of arguments of a relation: told, built in, or inherited -/
def valence (relation : String) : StateM Consulted Int := do
  match (← knowledge).valences[relation]? with
  | some n => return n
  | none =>
    match KnowledgeBase.listed? KnowledgeBase.builtinValences relation with
    | some n => return n
    | none => return (← inheritedValence? relation).getD (-1)

/-- the class is that of relations or below it -/
def isRelationClass (cls : String) : StateM Consulted Bool := do
  if cls = KnowledgeBase.relationClass then return true
  else isSubclass cls KnowledgeBase.relationClass

/-- the signature of a relation with a known count or a declared argument -/
def signature? (relation : String) : StateM Consulted (Option KnowledgeBase.Signature) := do
  let domains := (← knowledge).having [(0, "domain"), (1, relation)]
  let valence ← valence relation
  match domains.isEmpty && decide (valence < 0) with
  | true => return none
  | false =>
    let declared := domains.filterMap KnowledgeBase.declaration?
    let marked ← declared.filterM fun d => isRelationClass d.2
    return some {
      length := (declared.map Prod.fst).foldl max valence.toNat + 1
      marked := marked.map Prod.fst }

end Consulted

end OntologyPrep
