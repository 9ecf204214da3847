import OntologyPrep.Predicate.Clue
import OntologyPrep.Term.Basic

/-!
# Leaving out what is known

`Term.simplify` leaves known formulas out of conjunctions and drops an antecedent that is known or
comes down to truth.  It looks into operators and into the formulas that `holdsDuring` and `KappaFn`
hold, and into nothing else.
-/

namespace OntologyPrep.Term

/-- the conjunction of formulas; truth if there are none, and the formula itself if it is alone -/
def conjoin : List Term → Term
  | [] => .verum
  | [t] => t
  | ts => .conj ts

/-- an implication whose antecedent is truth gives way to its consequent -/
def dropTrueAntecedent : Term → Term
  | .list [.atom "=>", .atom "True", t] => t
  | t => t

/-- simplification may look into the arguments of the symbol -/
def isTransparent (name : String) : Bool := Name.isOperator name || formulaHolders.contains name

/-- the formula without the known ones among its conjuncts and antecedents -/
def simplifyBy (known : List Term) (t : Term) : Term :=
  match t with
  | .list (.atom "and" :: args) =>
    conjoin (args.filterMap fun a => if a ∈ known then none else some (a.simplifyBy known))
  | .list [.atom "=>", antecedent, consequent] =>
    if antecedent ∈ known then consequent.simplifyBy known
    else
      dropTrueAntecedent
        (.list [.atom "=>", antecedent.simplifyBy known, consequent.simplifyBy known])
  | .list (.atom h :: args) =>
    match isTransparent h with
    | true => .list (.atom h :: args.map fun a => a.simplifyBy known)
    | false => t
  | _ => t

/-- the formula simplified; untouched if nothing is known -/
def simplify (t : Term) (known : List Term) : Term :=
  if known.isEmpty then t else t.simplifyBy known

end OntologyPrep.Term
