import OntologyPrep.Inquiry.Basic
import OntologyPrep.Preparation.SortalFacts
import OntologyPrep.Sort.Restriction

/-!
# Sorts by asking

The type of an argument is asked for only if the cache does not have it.
-/

namespace OntologyPrep.Inquiry

/-- the type of an argument, remembered or asked for -/
def typeOf (relation : String) (position : Nat) : StateT TypeCache Inquiry (Option String) :=
  fun cache => do
    let key := TypeCache.argumentKey relation position
    match cache.get? key with
    | some result => return (result, cache)
    | none =>
      let result ← searchType relation position
      return (result, cache.insert key result)

/-- the classes that are not above another one of them, each once -/
def winnow (classes : List String) : Inquiry (List String) :=
  let distinct := classes.eraseDups
  distinct.filterM fun c => return !(← distinct.anyM fun other => isSubclass other c)

/-! ## guards -/

/-- the type asked for a place put on the shelf -/
def note (p : Term.Place) : StateT Restricting Inquiry Unit := fun r => do
  let found ← typeOf p.relation p.position r.cache
  match found.1 with
  | some type => return ((), ⟨(r.shelf.constrain p.name type).getD r.shelf, found.2⟩)
  | none => return ((), { r with cache := found.2 })

/-- the guards of a bound variable -/
def guards (f : Frame) : Inquiry (List Term) := do
  let instances ← winnow f.constraints.instances
  let subclasses ← winnow f.constraints.subclasses
  return instances.map (fun c => .app "instance" [.atom f.name, .atom c]) ++
    subclasses.map (fun c => .app "subclass" [.atom f.name, .atom c])

/-- the guards put into every quantified formula outside of atomic ones -/
def restrict : Term → StateT Restricting Inquiry Term
  | .atom a => return .atom a
  | .list items =>
    match _h : (Term.list items).binder? with
    | some b => do
      silent (Restricting.enter b.names b.quantifier)
      let body ← restrict b.body
      let frames ← silent (Restricting.leave b.names.length)
      let found ← (frames.mapM guards : Inquiry (List (List Term)))
      return .guarded b.quantifier b.names found.flatten body
    | none => do
      if (Term.list items).head?.any fun h => !Name.isOperator h then
        (Term.list items).places.forM note
        return .list items
      else return .list (← items.mapM restrict)
termination_by t => sizeOf t
decreasing_by
  · exact Term.sizeOf_body_lt ‹_›
  · decreasing_tactic

/-- a formula with its quantifiers, the implied outer one included, restricted to the types asked for -/
def restrictTypes (t : Term) : StateT TypeCache Inquiry Term := fun cache => do
  let r ← restrict t.closeUniversally ⟨[], cache⟩
  return (r.1, r.2.cache)

/-! ## facts -/

/-- the missing ones among the facts about some classes; they are missing no longer -/
def missingAmong (live : List Term) : List String → StateT TypeCache Inquiry (List Term)
  | [], cache => return ([], cache)
  | cls :: classes, cache => do
    let fact := Term.sortalFact cls
    let key := TypeCache.sortalKey cls
    if live.contains fact || (← knows fact) || cache.contains key then
      missingAmong live classes cache
    else
      let r ← missingAmong live classes (cache.insert key (some KnowledgeBase.setOrClass))
      return (fact :: r.1, r.2)

/-- the missing facts about the classes of some terms -/
def missingFacts (live : List Term) : StateT TypeCache Inquiry (List Term) :=
  missingAmong live (Term.classConstants live)

end OntologyPrep.Inquiry
