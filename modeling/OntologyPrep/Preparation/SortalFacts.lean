import OntologyPrep.Distinct
import OntologyPrep.Sort.Declared
import OntologyPrep.Term.Variables

/-!
# Facts about the classes of a formula

A constant that is used as a class has to be known as one.  `KnowledgeBase.missingFacts` lists the
facts `(instance C SetOrClass)` that are still missing: neither told, nor among the formulas
themselves, nor listed before, which the cache remembers.
-/

namespace OntologyPrep

/-- the name can be a class that has to be known as one -/
def Name.needsSort (name : String) : Bool :=
  !Name.isVariable name && !Name.isQuoted name && name ≠ KnowledgeBase.setOrClass

namespace Term

/-- the arguments that are used as classes by the application itself -/
def classArguments : Term → List Term
  | .list [.atom "instance", _, cls] => [cls]
  | .list [.atom "subclass", sub, sup] => [sub, sup]
  | _ => []

/-- the constants that are used as classes, each once -/
def classConstants (ts : List Term) : List String :=
  Distinct.ofList ((((ts.flatMap subterms).flatMap classArguments).filterMap name?).filter
    Name.needsSort)

/-- the fact that a class is one -/
def sortalFact (cls : String) : Term :=
  .app "instance" [.atom cls, .atom KnowledgeBase.setOrClass]

end Term

namespace KnowledgeBase

/-- the missing ones among the facts about some classes; they are missing no longer -/
def missingAmong (kb : KnowledgeBase) (live : List Term) :
    List String → StateM TypeCache (List Term)
  | [], cache => ([], cache)
  | cls :: classes, cache =>
    let fact := Term.sortalFact cls
    let key := TypeCache.sortalKey cls
    if live.contains fact || kb.knows fact || cache.contains key then
      kb.missingAmong live classes cache
    else
      let (facts, cache') := kb.missingAmong live classes (cache.insert key (some setOrClass))
      (fact :: facts, cache')

/-- the missing facts about the classes of some terms -/
def missingFacts (kb : KnowledgeBase) (live : List Term) : StateM TypeCache (List Term) :=
  kb.missingAmong live (Term.classConstants live)

end KnowledgeBase

end OntologyPrep
