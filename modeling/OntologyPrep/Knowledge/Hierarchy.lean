import OntologyPrep.Graph.Breadth
import OntologyPrep.Knowledge.Base

/-!
# The class hierarchy

The superclasses of a class are the other classes that told `subclass` statements lead to from it in
one step or more; a cycle of statements does no harm.  An individual is an instance of its told
classes and of their superclasses.
-/

namespace OntologyPrep.KnowledgeBase

/-- the classes that a class is a told subclass of, sorted -/
def parentsOf (kb : KnowledgeBase) (cls : String) : List String :=
  (kb.parents.getD cls ∅).toList

/-- the told classes of an individual, sorted -/
def classesOf (kb : KnowledgeBase) (item : String) : List String :=
  (kb.classes.getD item ∅).toList

/-- the classes above a class, nearer ones first.  Every class but the first is the second argument of
a told statement, so there are at most as many as told terms. -/
def above (kb : KnowledgeBase) (cls : String) : List String :=
  (Graph.reach kb.parentsOf (kb.size + 1) cls).drop 1

/-- the classes above a class, sorted -/
def superclasses (kb : KnowledgeBase) (cls : String) : List String :=
  (Std.TreeSet.ofList (kb.above cls)).toList

/-- the first class is below the second and is not the second -/
def isSubclass (kb : KnowledgeBase) (sub sup : String) : Bool :=
  sub ≠ sup && (kb.above sub).contains sup

/-- the individual is an instance of the class, or of a class below it -/
def isInstance (kb : KnowledgeBase) (item cls : String) : Bool :=
  (kb.classesOf item).any fun c => c = cls || kb.isSubclass c cls

/-- all instances of a class, sorted -/
def instancesOf (kb : KnowledgeBase) (cls : String) : List String :=
  kb.classes.keys.filter fun item => kb.isInstance item cls

end OntologyPrep.KnowledgeBase
