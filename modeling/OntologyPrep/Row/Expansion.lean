import OntologyPrep.Distinct
import OntologyPrep.Formula
import OntologyPrep.Row.Range
import OntologyPrep.Term.Substitution

/-!
# Writing rows out

Every row variable of a formula is replaced by sequences of fresh variables: by the longest one that
fits or, where a relation takes any number of arguments, by one of every length in turn.  The row
variables are written out one after another, in sorted order.

`Formula.expandRowsWithin` holds no more than a given number of terms at any time, and says whether it
had to leave some out.  String literals could have row variables inside, so a formula with one is
left as it is.
-/

namespace OntologyPrep

/-- the stem of the variables that a row is written out with -/
def rowStem (row : String) : String := "?" ++ String.ofList (row.toList.drop 1)

/-- the sequences that take the place of a row variable, of fresh variables named after it -/
def rowSequences (row : String) (range : RowRange) (count : Nat) :
    StateM Supply (List (List Term)) := do
  let names ← Supply.drawMany (rowStem row) (count - 1)
  let longest := names.map Term.atom
  return if range.variadic then
      (List.range longest.length).map fun n => longest.take (n + 1)
    else [longest]

/-- the terms in which one row variable is written out -/
def Term.expandRow (kb : KnowledgeBase) (row : String) (t : Term) :
    StateM Supply (List Term) := do
  let form ← ClausalForm.ofTerm t
  let range := RowRange.ofRelations kb (form.governing row)
  let sequences ← rowSequences row range (form.rowCount row range.variadic range.most)
  return sequences.map (t.splice row)

/-- the terms held while rows are written out -/
structure RowExpansion where
  /-- the terms without row variables, each once -/
  finished : List Term
  /-- the terms that have row variables left -/
  pending : List Term
  /-- some terms were left out -/
  truncated : Bool
  deriving Repr

namespace RowExpansion

/-- the number of terms held -/
def size (e : RowExpansion) : Nat := e.finished.length + e.pending.length

/-- there is no room for one more -/
def isFull (e : RowExpansion) (budget : Option Nat) : Bool := budget.any fun n => n ≤ e.size

/-- one more term -/
def put (e : RowExpansion) (t : Term) : RowExpansion :=
  if t.containsRowVariable then { e with pending := e.pending ++ [t] }
  else { e with finished := Distinct.add e.finished t }

/-- some more terms, as long as there is room; the flag says whether there was room for all -/
def putAll (budget : Option Nat) : List Term → RowExpansion → RowExpansion × Bool
  | [], e => (e, true)
  | t :: ts, e => if e.isFull budget then (e, false) else putAll budget ts (e.put t)

/-- one row variable written out in terms from left to right, until there is no room -/
def expandTerms (kb : KnowledgeBase) (budget : Option Nat) (row : String) :
    List Term → RowExpansion → StateM Supply RowExpansion
  | [], e => pure e
  | t :: ts, e => do
    let expanded ← if t.containsAtom row then t.expandRow kb row else pure [t]
    match e.putAll budget expanded with
    | (e', true) => expandTerms kb budget row ts e'
    | (e', false) => pure { e' with truncated := true }

/-- one row variable written out in all terms that have row variables left -/
def expandRow (kb : KnowledgeBase) (budget : Option Nat) (e : RowExpansion) (row : String) :
    StateM Supply RowExpansion :=
  expandTerms kb budget row e.pending { e with pending := [] }

/-- all terms held, each once -/
def terms (e : RowExpansion) : List Term := Distinct.addAll e.finished e.pending

end RowExpansion

namespace Term

/-- the terms in which all row variables are written out, and whether some were left out -/
def expandRows (kb : KnowledgeBase) (budget : Option Nat) (t : Term) :
    StateM Supply (List Term × Bool) :=
  if t.rowVariables.isEmpty || t.containsQuoted then pure ([t], false)
  else do
    let e ← t.rowVariables.foldlM (RowExpansion.expandRow kb budget) ⟨[], [t], false⟩
    return (e.terms, e.truncated)

end Term

namespace Formula

/-- the formulas in which all row variables are written out, no more of them than the budget, and
whether some were left out; a formula without a term only loses its diagnostics -/
def expandRowsWithin (kb : KnowledgeBase) (f : Formula) (budget : Option Nat) :
    StateM Supply (List Formula × Bool) :=
  match f.term with
  | none => pure ([f.withoutDiagnostics], false)
  | some t => do
    let r ← t.expandRows kb budget
    return (r.1.map f.derive, r.2)

/-- the formulas in which all row variables are written out -/
def expandRows (kb : KnowledgeBase) (f : Formula) : StateM Supply (List Formula) :=
  return (← f.expandRowsWithin kb none).1

end Formula

end OntologyPrep
