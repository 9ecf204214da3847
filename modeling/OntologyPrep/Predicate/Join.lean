import OntologyPrep.Knowledge.Query
import OntologyPrep.Predicate.Template

/-!
# Joining the answers to several questions

The questions about a variable are asked in turn, those with more variables first and those about
instances last; a question without answers is passed over.  The first one with answers is the key.
Each later one keeps those rows of the key that agree with one of its own rows on all variables that
both have.
-/

namespace OntologyPrep

/-- the two give no variable different terms -/
def Bindings.agrees (row other : Bindings) : Bool :=
  other.toList.all fun p => (row[p.1]?).all (· = p.2)

namespace Literal

/-- the literal is asked before the other one, or neither comes first -/
def asksBefore (l m : Literal) : Bool :=
  if l.relation = instanceName then
    m.relation = instanceName && m.variableNames.length ≤ l.variableNames.length
  else m.relation = instanceName || m.variableNames.length ≤ l.variableNames.length

end Literal

namespace KnowledgeBase

/-- the answers to a literal in which the variable is a constant -/
def rowsFor (kb : KnowledgeBase) (name : String) (l : Literal) : List Bindings :=
  ((kb.ask l).filterMap l.bindings?).filter fun row =>
    row[name]?.any fun t => !t.isList && !t.isVariable

end KnowledgeBase

/-- the answers to the questions about a variable -/
structure Join where
  /-- the first question that has answers -/
  key : Literal
  /-- all questions that have answers -/
  used : List Literal
  /-- the answers to the key that agree with all the others -/
  rows : List Bindings

namespace Join

/-- one more question with its answers -/
def add (j : Option Join) (l : Literal) (rows : List Bindings) : Option Join :=
  match rows, j with
  | [], _ => j
  | _ :: _, none => some ⟨l, [l], rows⟩
  | _ :: _, some j =>
    some { j with used := j.used ++ [l], rows := j.rows.filter fun r => rows.any r.agrees }

/-- the answers to questions about a variable, if any are left -/
def ofTemplates? (kb : KnowledgeBase) (name : String) (templates : List Literal) : Option Join :=
  ((templates.mergeSort Literal.asksBefore).foldl
    (fun j l => add j l (kb.rowsFor name l)) none).filter fun j => !j.rows.isEmpty

/-- what the variable can stand for, each term once -/
def values (j : Join) (name : String) : List Term :=
  Distinct.ofList (j.rows.filterMap fun row => row[name]?)

end Join

end OntologyPrep
