import OntologyPrep.Fresh.RenameMap
import OntologyPrep.Fresh.Supply

/-!
# Renaming all variables apart

`Term.rename` gives every variable a fresh name.  Each quantified formula draws names of its own for
the names that it binds and uses them in its body only; a free variable keeps the one fresh name
that it got first.  Every draw is recorded as a link from the new name to the old one.
-/

namespace OntologyPrep

/-- what renaming carries along: the supply, the names of the free variables, and the links -/
structure Renaming where
  supply : Supply
  free : Std.TreeMap String String
  links : RenameMap

namespace Renaming

/-- before any free variable has been seen -/
def start (s : Supply) (links : RenameMap) : Renaming := ⟨s, ∅, links⟩

/-- a fresh name in place of another one, with its link -/
def draw (r : Renaming) (name : String) : String × Renaming :=
  let (new, supply) := Supply.drawLike name r.supply
  (new, { r with supply := supply, links := r.links.insert new name })

/-- the name of a free variable: the one it has, or a fresh one -/
def ofFree (r : Renaming) (name : String) : String × Renaming :=
  match r.free[name]? with
  | some new => (new, r)
  | none =>
    let (new, r') := r.draw name
    (new, { r' with free := r'.free.insert name new })

/-- fresh names for bound names, and the scope in which they stand for them -/
def bind (scope : Std.TreeMap String String) :
    List String → Renaming → List String × Std.TreeMap String String × Renaming
  | [], r => ([], scope, r)
  | name :: names, r =>
    let (new, r') := r.draw name
    let (news, inner, r'') := bind (scope.insert name new) names r'
    (new :: news, inner, r'')

end Renaming

/-- every variable replaced by a fresh one; names of the scope stand for what the scope says -/
def Term.rename (scope : Std.TreeMap String String) : Term → StateM Renaming Term
  | .atom a =>
    match Name.isVariable a, scope[a]? with
    | false, _ => pure (.atom a)
    | true, some new => pure (.atom new)
    | true, none => fun r => let (new, r') := r.ofFree a; (.atom new, r')
  | .list items =>
    match _h : (Term.list items).binder? with
    | some b => fun r =>
      let (news, inner, r') := Renaming.bind scope b.names r
      let (body, r'') := b.body.rename inner r'
      (.quantified b.quantifier.name news body, r'')
    | none => return .list (← items.mapM (rename scope))
termination_by t => sizeOf t
decreasing_by
  · exact Term.sizeOf_body_lt ‹_›
  · decreasing_tactic

end OntologyPrep
