import OntologyPrep.Clause.Form
import OntologyPrep.Knowledge.Signature
import OntologyPrep.Term.Variables

/-!
# How long a row can be

A row variable stands for a sequence of individuals.  The applications that it is an argument of say
how long the sequence can be:

* `ClausalForm.applicationsTo`   the applications of constants to a row variable;
* `RowRange.ofRelations`         the lengths that the argument counts of their relations allow;
* `ClausalForm.rowCount`         the number of lengths to try, less what other arguments take up.
-/

namespace OntologyPrep

/-! ## where a row variable stands -/

/-- the term is an application of a constant -/
def Term.appliesConstant (t : Term) : Bool :=
  t.head?.any fun h => !Name.isVariable h && !Name.isSkolem h

namespace ClausalForm

/-- an argument that comes from the row variable -/
def isRow (f : ClausalForm) (row : String) (arg : Term) : Bool :=
  arg.name?.any fun a => Name.isVariable a && f.links.leadsTo a row

/-- the applications of constants in the clauses that have the row variable as an argument -/
def applicationsTo (f : ClausalForm) (row : String) : List Term :=
  (f.literals.flatMap Term.subterms).filter fun t =>
    t.appliesConstant && t.args.any (f.isRow row)

/-- the relations that are applied to the row variable, sorted -/
def governing (f : ClausalForm) (row : String) : List String :=
  (Std.TreeSet.ofList ((f.applicationsTo row).filterMap Term.head?)).toList

end ClausalForm

/-! ## lengths -/

/-- the lengths that a row may have -/
structure RowRange where
  least : Nat
  most : Nat
  /-- some relation takes any number of arguments -/
  variadic : Bool
  deriving DecidableEq, Repr

namespace RowRange

/-- the largest number of lengths tried for a row -/
def limit : Nat := 8

/-- nothing known of the relations -/
def unknown : RowRange := ⟨1, limit, false⟩

/-- the range narrowed by the argument count of a relation: 0 for any number, negative if unknown -/
def narrow (r : RowRange) (valence : Int) : RowRange :=
  if valence = 0 then { r with variadic := true }
  else if 0 < valence then { r with least := 1, most := min r.most (valence.toNat + 1) }
  else r

/-- the range that all relations allow -/
def ofRelations (kb : KnowledgeBase) (relations : List String) : RowRange :=
  relations.foldl (fun r relation => r.narrow (kb.valence relation)) unknown

end RowRange

/-- the length of the lists that the rows of relations with any number of arguments may fill -/
def variadicLength : Nat := 10

/-- the length left to a row by the other elements of an application -/
def Term.roomForRow (variadic : Bool) (count : Nat) (app : Term) : Nat :=
  if variadic then variadicLength - app.items.length else count - (app.items.length - 2)

/-- one more than the longest row to try: what every application to the row variable has room for, but
at least 2 -/
def ClausalForm.rowCount (f : ClausalForm) (row : String) (variadic : Bool) (count : Nat) : Nat :=
  max 2 (((f.applicationsTo row).map (Term.roomForRow variadic count)).min?.getD count)

end OntologyPrep
