import OntologyPrep.Knowledge.Query

/-!
# What relations want

* `KnowledgeBase.valence`     how many arguments a relation takes: 0 for any number, -1 if unknown;
* `KnowledgeBase.signature?`  which of its arguments are relations themselves;
* `KnowledgeBase.argType?`    the declared class of an argument, with `+` behind it if the argument
                              is a subclass of the class and not an instance; position 0 is the value
                              of a function.
-/

namespace OntologyPrep

namespace KnowledgeBase

/-- the counts of the relations that declarations are made with -/
def builtinValences : List (String × Int) :=
  [("and", 0), ("or", 0), ("not", 1), ("=>", 2), ("<=>", 2), ("instance", 2), ("subclass", 2),
   ("subrelation", 2), ("domain", 3), ("domainSubclass", 3), ("range", 2), ("rangeSubclass", 2),
   ("valence", 2), ("equal", 2)]

/-- the counts that follow from being an instance of a class -/
def arityClasses : List (String × Int) :=
  [("VariableArityRelation", 0), ("UnaryFunction", 1), ("BinaryRelation", 2),
   ("BinaryPredicate", 2), ("BinaryFunction", 2), ("TernaryRelation", 3), ("TernaryPredicate", 3),
   ("TernaryFunction", 3), ("QuaternaryRelation", 4), ("QuaternaryPredicate", 4),
   ("QuaternaryFunction", 4), ("QuintaryRelation", 5), ("QuintaryPredicate", 5)]

/-- the count that a table gives for a name -/
def listed? (table : List (String × Int)) (name : String) : Option Int :=
  (table.find? fun row => row.1 = name).map fun row => row.2

/-- the count that the classes of a relation imply: each class, then its superclasses -/
def inheritedValence? (kb : KnowledgeBase) (relation : String) : Option Int :=
  (kb.classesOf relation).findSome? fun c =>
    (c :: kb.superclasses c).findSome? (listed? arityClasses)

/-- the number of arguments of a relation: told, built in, or inherited -/
def valence (kb : KnowledgeBase) (relation : String) : Int :=
  match kb.valences[relation]? with
  | some n => n
  | none =>
    match listed? builtinValences relation with
    | some n => n
    | none => (kb.inheritedValence? relation).getD (-1)

/-! ## signatures -/

/-- the class of relations -/
def relationClass : String := "Relation"

/-- the class is that of relations or below it -/
def isRelationClass (kb : KnowledgeBase) (cls : String) : Bool :=
  cls = relationClass || kb.isSubclass cls relationClass

/-- which positions, the head at 0 included, hold relations -/
structure Signature where
  length : Nat
  marked : List Nat
  deriving DecidableEq, Repr

/-- the position holds a relation; nothing is said of positions past the end -/
def Signature.at? (s : Signature) (position : Nat) : Option Bool :=
  if position < s.length then some (s.marked.contains position) else none

/-- one value for each position -/
def Signature.toList (s : Signature) : List Bool :=
  (List.range s.length).map s.marked.contains

/-- no vector has so many entries: `2 ^ 63` -/
def vectorBound : Nat := 9223372036854775808

/-- a vector can hold the signature -/
def Signature.fits (s : Signature) : Bool := s.length < vectorBound

/-- the position and the class of a `domain` statement -/
def declaration? (t : Term) : Option (Nat × String) := do
  let position ← Decimal.position? (← t.atomAt? 2)
  let cls ← t.atomAt? 3
  return (position, cls)

/-- the signature of a relation with a known count or a declared argument -/
def signature? (kb : KnowledgeBase) (relation : String) : Option Signature :=
  let domains := kb.having [(0, "domain"), (1, relation)]
  let valence := kb.valence relation
  match domains.isEmpty && decide (valence < 0) with
  | true => none
  | false =>
    let declared := domains.filterMap declaration?
    some {
      length := (declared.map Prod.fst).foldl max valence.toNat + 1
      marked := (declared.filter fun d => kb.isRelationClass d.2).map Prod.fst }

/-! ## argument types -/

/-- the first class that a declaration of a kind gives for an argument -/
def declaredType? (kb : KnowledgeBase) (kind relation : String) (position : Nat) :
    Option String :=
  if position = 0 then
    (kb.having [(0, kind), (1, relation)]).findSome? fun t => t.atomAt? 2
  else
    (kb.having [(0, kind), (1, relation), (2, toString position)]).findSome? fun t => t.atomAt? 3

/-- the declared class of an argument, or of the value at position 0 -/
def argType? (kb : KnowledgeBase) (relation : String) (position : Nat) : Option String :=
  let plain := if position = 0 then "range" else "domain"
  let subclass := if position = 0 then "rangeSubclass" else "domainSubclass"
  match kb.declaredType? plain relation position with
  | some cls => some cls
  | none => (kb.declaredType? subclass relation position).map (· ++ "+")

end KnowledgeBase

end OntologyPrep
