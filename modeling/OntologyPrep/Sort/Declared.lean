import OntologyPrep.Knowledge.Signature
import OntologyPrep.Sort.Cache

/-!
# Declared types

The type of an argument is the one declared for the relation itself or, failing that, for the
nearest relation above it along told `subrelation` statements.  `Entity` says nothing and is passed
over.  `KnowledgeBase.typeOf` remembers every result.

`KnowledgeBase.winnow` keeps the most specific ones of some classes.
-/

namespace OntologyPrep.KnowledgeBase

/-- the class of everything -/
def entityClass : String := "Entity"

/-- the class of sets and classes -/
def setOrClass : String := "SetOrClass"

/-- the relations that a relation is told to be a subrelation of, in the order of telling -/
def superrelationsOf (kb : KnowledgeBase) (relation : String) : List String :=
  (kb.having [(0, "subrelation"), (1, relation)]).filterMap fun t => t.atomAt? 2

/-- the type says something -/
def isInformative (type : String) : Bool := type ≠ entityClass && type ≠ entityClass ++ "+"

/-- the relations from which an argument type is inherited, nearer ones first.  Every relation but the
first is the second argument of a told statement, so there are at most as many as told terms. -/
def relationsFrom (kb : KnowledgeBase) (relation : String) : List String :=
  Graph.reach kb.superrelationsOf (kb.size + 1) relation

/-- the type of an argument, searched for -/
def searchType (kb : KnowledgeBase) (relation : String) (position : Nat) : Option String :=
  (kb.relationsFrom relation).findSome? fun r => (kb.argType? r position).filter isInformative

/-- the type of an argument, remembered or searched for -/
def typeOf (kb : KnowledgeBase) (relation : String) (position : Nat) :
    StateM TypeCache (Option String) :=
  TypeCache.getOrAdd (TypeCache.argumentKey relation position) fun _ =>
    kb.searchType relation position

/-- the classes that are not above another one of them, each once -/
def winnow (kb : KnowledgeBase) (classes : List String) : List String :=
  let distinct := classes.eraseDups
  distinct.filter fun c => !distinct.any fun other => kb.isSubclass other c

end OntologyPrep.KnowledgeBase
