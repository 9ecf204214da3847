import OntologyPrep.Clause.Basic
import OntologyPrep.Fresh.Renaming
import OntologyPrep.Normal.Connective
import OntologyPrep.Normal.Disjunction
import OntologyPrep.Normal.Negation
import OntologyPrep.Normal.Skolem

/-!
# Clausal forms

`ClausalForm.ofTerm` turns a formula into clauses: arrows out, negations in, all variables renamed,
existential formulas Skolemised, universal quantifiers dropped, disjunctions in, and then the
variables of every conjunct renamed once more, so that no two clauses share one.  The form keeps the
links from each variable back to the formula's own.
-/

namespace OntologyPrep

namespace Term

/-- the term with all variables renamed, and its links added to the given ones -/
def renameApart (t : Term) (links : RenameMap) : StateM Supply (Term × RenameMap) := fun s =>
  let r := t.rename ∅ (Renaming.start s links)
  ((r.1, r.2.links), r.2.supply)

/-- each of some terms with variables of its own -/
def renameEach : List Term → RenameMap → StateM Supply (List Term × RenameMap)
  | [], links => pure ([], links)
  | t :: ts, links => do
    let r ← t.renameApart links
    let rs ← renameEach ts r.2
    return (r.1 :: rs.1, rs.2)

/-- every conjunct with variables of its own -/
def standardizeApart (t : Term) (links : RenameMap) : StateM Supply (Term × RenameMap) :=
  if t.operator? = some .conj then do
    let r ← renameEach t.args links
    return (.conj r.1, r.2)
  else t.renameApart links

end Term

/-- a formula in clausal form -/
structure ClausalForm where
  /-- the conjunction of disjunctions -/
  term : Term
  /-- the links from its variables to those of the formula -/
  links : RenameMap

namespace ClausalForm

/-- the clauses -/
def clauses (f : ClausalForm) : List Clause := f.term.clauses

/-- the literals of all clauses, without their signs -/
def literals (f : ClausalForm) : List Term := f.clauses.flatMap Clause.literals

/-- the variable of the formula that a variable of the form comes from -/
def source (f : ClausalForm) (name : String) : String := f.links.resolve name

/-- the clausal form of a formula -/
def ofTerm (t : Term) : StateM Supply ClausalForm := do
  let renamed ← t.equivalencesOut.implicationsOut.negationsIn.renameApart .empty
  let skolemized ← renamed.1.existentialsOut
  let apart ← skolemized.universalsOut.disjunctionsIn.standardizeApart renamed.2
  return ⟨apart.1, apart.2⟩

end ClausalForm

end OntologyPrep
