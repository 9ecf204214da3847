import OntologyPrep.Distinct
import OntologyPrep.Term.Basic

/-!
# Clauses

A clause is a disjunction of literals, the negated ones and the others apart, each literal once and
in the order of its first occurrence.  `Term.clauses` takes a conjunction of disjunctions apart; an
empty conjunction has the one clause that always holds.
-/

namespace OntologyPrep

/-- a disjunction of literals; negated ones are listed without their negation -/
structure Clause where
  negative : List Term
  positive : List Term
  deriving DecidableEq, Repr

namespace Clause

/-- the clause without literals -/
def empty : Clause := ⟨[], []⟩

/-- one more literal; falsity counts as negated truth -/
def add (c : Clause) : Term → Clause
  | .list [.atom "not", t] => { c with negative := Distinct.add c.negative t }
  | .atom "False" => { c with negative := Distinct.add c.negative .verum }
  | t => { c with positive := Distinct.add c.positive t }

/-- the clause of some literals -/
def ofLiterals (ts : List Term) : Clause := ts.foldl add empty

/-- all literals without their signs, the negated ones first -/
def literals (c : Clause) : List Term := c.negative ++ c.positive

/-- the clause as a formula: its only literal, or a disjunction; falsity if there is none -/
def toTerm (c : Clause) : Term :=
  match c.negative.map Term.neg ++ c.positive with
  | [] => .falsum
  | [t] => t
  | ts => .disj ts

end Clause

namespace Term

/-- the arguments of an application of the operator, or the term alone -/
def operands (op : Operator) (t : Term) : List Term :=
  if t.operator? = some op then t.args else [t]

/-- the clauses of a conjunction of disjunctions -/
def clauses (t : Term) : List Clause :=
  match t.operands .conj with
  | [] => [Clause.ofLiterals [.verum]]
  | conjuncts => conjuncts.map fun c => Clause.ofLiterals (c.operands .disj)

end Term

end OntologyPrep
