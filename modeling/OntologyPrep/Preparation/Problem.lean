import OntologyPrep.Arity
import OntologyPrep.Formula
import OntologyPrep.Predicate.Instantiation

/-!
# Problems of a formula

What can go wrong with a formula, or with one of those that it turns into, while it is prepared.  A
problem is told as a diagnostic of the formula itself.
-/

namespace OntologyPrep

/-- what there is to tell about a formula -/
inductive Problem where
  /-- parentheses or quotes do not pair up -/
  | unbalanced
  /-- the text is not a single term -/
  | notSingle
  /-- a formula has no instances -/
  | notInstantiated (reason : Rejection)
  /-- formulas were left out -/
  | limitReached (limit : Nat)
  /-- a formula was dropped for a character -/
  | notAscii (t : Term)
  /-- a statement was dropped for a free variable -/
  | freeVariables (t : Term)
  /-- a formula was dropped for an application -/
  | wrongArity (t : Term) (e : ArityError)
  deriving DecidableEq, Repr

namespace Problem

/-- the code of the diagnostic -/
def code : Problem → String
  | unbalanced | notSingle => "E-SYNTAX"
  | notInstantiated _ => "E-PREDVAR"
  | limitReached _ => "W-EXPANSION-LIMIT"
  | notAscii _ | freeVariables _ => "W-UNSUITABLE"
  | wrongArity _ _ => "E-ARITY"

/-- the message of a dropped formula -/
def dropped (t : Term) (reason : String) : String := "dropped " ++ t.render ++ ": " ++ reason

/-- the problem in words -/
def message : Problem → String
  | unbalanced => "unbalanced parentheses or quotes"
  | notSingle => "formula text is not a single well-formed expression"
  | notInstantiated reason => reason.message
  | limitReached limit =>
    "variable expansion reached the limit of " ++ toString limit ++ " candidates"
  | notAscii t => dropped t "residual non-ASCII content"
  | freeVariables t => dropped t "free variables in an assertion"
  | wrongArity t e => dropped t e.message

end Problem

/-- the formula with a problem told -/
def Formula.tell (f : Formula) (p : Problem) : Formula := f.report p.code p.message

end OntologyPrep
