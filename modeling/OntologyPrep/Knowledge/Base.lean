import OntologyPrep.Knowledge.Index
import OntologyPrep.Term.Order
import OntologyPrep.Term.Variables
import OntologyPrep.Text.Decimal
import OntologyPrep.Text.Reader

/-!
# Knowledge bases

A knowledge base holds the terms that it has been told, each once and in the order of telling.  A
told term is a statement if it has no variable and is headed by a symbol that is no operator.
Statements are indexed, and three relations are kept in tables of their own: `subclass`, `instance`,
and `valence`.  Whatever follows the first two arguments of such a statement does not matter.
-/

namespace OntologyPrep

/-- a variable-free application of a symbol that is no operator -/
def Term.isStatement (t : Term) : Bool :=
  !t.containsVariable && t.head?.any fun h => !Name.isOperator h

/-- one more value of a key -/
def addValue (table : Std.TreeMap String (Std.TreeSet String)) (key value : String) :
    Std.TreeMap String (Std.TreeSet String) :=
  table.insert key ((table.getD key ∅).insert value)

/-- what has been told, in order and as a set, and the tables that answer questions about it -/
structure KnowledgeBase where
  told : Array Term
  known : Std.TreeMap Term Unit
  index : Index
  parents : Std.TreeMap String (Std.TreeSet String)
  classes : Std.TreeMap String (Std.TreeSet String)
  valences : Std.TreeMap String Int

namespace KnowledgeBase

/-- nothing told -/
def empty : KnowledgeBase := ⟨#[], ∅, .empty, ∅, ∅, ∅⟩

/-- the term has been told -/
def knows (kb : KnowledgeBase) (t : Term) : Bool := kb.known.contains t

/-- the number of told terms -/
def size (kb : KnowledgeBase) : Nat := kb.told.size

/-- the told statements with an atom at a position, in the order of telling -/
def statements (kb : KnowledgeBase) (position : Nat) (name : String) : List Term :=
  (kb.index.find position name).toList.filterMap fun place => kb.told[place]?

/-- the tables after one more statement, which is told next -/
def record (kb : KnowledgeBase) (t : Term) : KnowledgeBase :=
  let kb := { kb with index := kb.index.insert kb.size t }
  match t.head?, t.atomAt? 1, t.atomAt? 2 with
  | some "subclass", some sub, some sup => { kb with parents := addValue kb.parents sub sup }
  | some "instance", some item, some cls => { kb with classes := addValue kb.classes item cls }
  | some "valence", some relation, some count =>
    match Decimal.valence? count with
    | some n => { kb with valences := kb.valences.insert relation n }
    | none => kb
  | _, _, _ => kb

/-- one more term told, unless it is known -/
def tell (kb : KnowledgeBase) (t : Term) : KnowledgeBase :=
  match kb.knows t with
  | true => kb
  | false => { if t.isStatement then kb.record t else kb with
      told := kb.told.push t, known := kb.known.insert t () }

/-- terms told from left to right -/
def tellAll (kb : KnowledgeBase) (ts : List Term) : KnowledgeBase := ts.foldl tell kb

/-- the knowledge base of the terms of a text -/
def ofText (text : String) : Except SyntaxError KnowledgeBase :=
  (Term.readAll text).map empty.tellAll

end KnowledgeBase

end OntologyPrep
