import OntologyPrep.Inquiry.Basic
import OntologyPrep.Row.Expansion

/-!
# Rows by asking

What a row variable is written out to depends on the argument counts of the relations that it is an argument
of, and on nothing else in a knowledge base.
-/

namespace OntologyPrep.Inquiry

/-- the range of lengths that all relations allow -/
def rowRange (relations : List String) : Inquiry RowRange :=
  relations.foldlM (fun r relation => return r.narrow (← valence relation)) .unknown

/-- the terms in which one row variable is written out -/
def expandRow (row : String) (t : Term) : StateT Supply Inquiry (List Term) := do
  let form ← silent (ClausalForm.ofTerm t)
  let range ← rowRange (form.governing row)
  let sequences ← silent (rowSequences row range (form.rowCount row range.variadic range.most))
  return sequences.map (t.splice row)

/-- the terms that take the place of a term when one row variable is written out -/
def replacements (row : String) (t : Term) : StateT Supply Inquiry (List Term) :=
  if t.containsAtom row then expandRow row t else return [t]

/-- one row variable written out in terms from left to right, until there is no room -/
def expandTerms (budget : Option Nat) (row : String) :
    List Term → RowExpansion → StateT Supply Inquiry RowExpansion
  | [], e => return e
  | t :: ts, e => do
    match e.putAll budget (← replacements row t) with
    | (e', true) => expandTerms budget row ts e'
    | (e', false) => return { e' with truncated := true }

/-- one row variable written out in all terms that have row variables left -/
def expandPending (budget : Option Nat) (e : RowExpansion) (row : String) :
    StateT Supply Inquiry RowExpansion :=
  expandTerms budget row e.pending { e with pending := [] }

/-- the terms in which all row variables are written out, and whether some were left out -/
def expandRows (budget : Option Nat) (t : Term) : StateT Supply Inquiry (List Term × Bool) :=
  if t.rowVariables.isEmpty || t.containsQuoted then return ([t], false)
  else do
    let e ← t.rowVariables.foldlM (expandPending budget) ⟨[], [t], false⟩
    return (e.terms, e.truncated)

/-- the formulas in which all row variables are written out, no more of them than the budget, and
whether some were left out -/
def expandRowsWithin (f : Formula) (budget : Option Nat) :
    StateT Supply Inquiry (List Formula × Bool) :=
  match f.term with
  | none => return ([f.withoutDiagnostics], false)
  | some t => do
    let r ← expandRows budget t
    return (r.1.map f.derive, r.2)

end OntologyPrep.Inquiry
