import OntologyPrep.Term.Substitution
import OntologyPrep.Term.Variables

/-!
# Giving a variable its value

`Term.assign` puts a value in the place of a variable: everywhere if the variable is free, and
otherwise in the body of the first quantified formula that binds it, which then binds it no longer.
-/

namespace OntologyPrep

/-- the quantified formula with a value for one of its names, which it no longer binds -/
def Binder.assign (b : Binder) (name : String) (value : Term) : Term :=
  let body := b.body.substitute name value
  match b.names.filter (· ≠ name) with
  | [] => body
  | names => .quantified b.quantifier.name names body

namespace Term

mutual

/-- the first quantified formula that binds the name, an outer one before an inner one, with the
value for it -/
def assignBound? (name : String) (value : Term) : Term → Option Term
  | .atom _ => none
  | .list items =>
    match (Term.list items).binder?.filter fun b => b.names.contains name with
    | some b => some (b.assign name value)
    | none => (assignBoundIn? name value items).map .list

/-- the same in the first of some terms that has such a formula -/
def assignBoundIn? (name : String) (value : Term) : List Term → Option (List Term)
  | [] => none
  | t :: ts =>
    match assignBound? name value t with
    | some t' => some (t' :: ts)
    | none => (assignBoundIn? name value ts).map (t :: ·)

end

/-- the value in the place of the variable -/
def assign (t : Term) (name : String) (value : Term) : Term :=
  match t.freeVariables.contains name with
  | true => t.substitute name value
  | false => (assignBound? name value t).getD t

theorem assign_of_mem {t : Term} {name : String} (value : Term) (h : name ∈ t.freeVariables) :
    t.assign name value = t.substitute name value := by
  rw [assign, List.contains_iff_mem.mpr h]

theorem assign_of_not_mem {t : Term} {name : String} (value : Term) (h : name ∉ t.freeVariables) :
    t.assign name value = (assignBound? name value t).getD t := by
  rw [assign, show t.freeVariables.contains name = false by simpa using h]

end Term

end OntologyPrep
