import OntologyPrep.Clause.Form
import OntologyPrep.Knowledge.Literal
import OntologyPrep.Predicate.Clue

/-!
# Questions about a predicate variable

What a variable that stands for a relation can be is asked of the knowledge base.  The questions are
taken from the clauses of the formula: literals with the variable as an argument, the negated ones
or, if none of them qualifies, the others; and one question for each class that is known of the
variable.
-/

namespace OntologyPrep

/-- the relation between an individual and a class -/
def instanceName : String := "instance"

namespace ClausalForm

/-- a literal in the variables of the formula -/
def inSources (f : ClausalForm) (t : Term) : Term :=
  t.mapAtoms fun a =>
    match Name.isVariable a with
    | true => f.source a
    | false => a

end ClausalForm

namespace Literal

/-- the question whether a name is an instance of a class -/
def instanceOf (name cls : String) : Literal := ⟨instanceName, [.atom name, .atom cls]⟩

/-- the literal can be asked about the variable: its relation is a known one, the variable is an
argument, no Skolem symbol occurs, and it says more than that the variable is a relation -/
def asksAbout (kb : KnowledgeBase) (name : String) (l : Literal) : Bool :=
  !Name.isVariable l.relation &&
    (l.relation = instanceName || (kb.signature? l.relation).isSome) &&
    !l.toTerm.containsSkolem && l.args.contains (.atom name) &&
    l ≠ instanceOf name KnowledgeBase.relationClass

end Literal

namespace ClausalForm

/-- the literals of a kind that can be asked about the variable, each once -/
def questionsAmong (f : ClausalForm) (kb : KnowledgeBase) (name : String)
    (kind : Clause → List Term) : List Literal :=
  Distinct.ofList <| ((f.clauses.flatMap kind).filterMap fun t =>
    Literal.ofTerm? (f.inSources t)).filter (Literal.asksAbout kb name)

/-- the questions that the clauses ask about the variable -/
def questions (f : ClausalForm) (kb : KnowledgeBase) (name : String) : List Literal :=
  match f.questionsAmong kb name Clause.negative with
  | [] => f.questionsAmong kb name Clause.positive
  | ls => ls

/-- the questions about the variable, with those about the classes that are known of it -/
def templates (f : ClausalForm) (kb : KnowledgeBase) (name : String) (use : PredicateUse) :
    List Literal :=
  Distinct.addAll (f.questions kb name)
    ((use.types.toList.filter (· ≠ KnowledgeBase.relationClass)).map (Literal.instanceOf name))

end ClausalForm

end OntologyPrep
