import OntologyPrep.Knowledge.Signature
import OntologyPrep.Sort.Shelf
import OntologyPrep.Term.Variables

/-!
# Variables that stand for relations

A variable stands for a relation if it is applied to something, or if it is an argument where the
signature of the applied relation wants a relation.  Each such place gives a clue about the
variable; `Term.predicateVariables` collects the clues of a formula by variable.

Of `(holdsDuring time formula)` and `(KappaFn variable formula)` only the formula counts, and
`(holds relation arguments)` is the application of its first argument to the others.
-/

namespace OntologyPrep

/-- the relation that applies its first argument to the others -/
def holdsName : String := "holds"

/-- the relations whose second argument is a formula -/
def formulaHolders : List String := ["holdsDuring", "KappaFn"]

/-- what a place says about the variable in it -/
inductive PredicateClue where
  /-- it is applied -/
  | head
  /-- it is an argument that must be a relation, perhaps of a known class -/
  | place (type : Option String)
  deriving DecidableEq, Repr

/-- what is known of a variable that stands for a relation -/
structure PredicateUse where
  isHead : Bool
  types : Std.TreeSet String

namespace PredicateUse

/-- nothing known -/
def unknown : PredicateUse := ⟨false, ∅⟩

/-- one more clue -/
def add (u : PredicateUse) : PredicateClue → PredicateUse
  | .head => { u with isHead := true }
  | .place (some type) => { u with types := u.types.insert type }
  | .place none => u

end PredicateUse

/-- the variables of a formula that stand for relations -/
abbrev PredicateVariables := Std.TreeMap String PredicateUse

/-- one more clue about a variable -/
def PredicateVariables.add (vs : PredicateVariables) (name : String) (clue : PredicateClue) :
    PredicateVariables :=
  vs.insert name ((vs.getD name .unknown).add clue)

namespace Term

/-- what the application of a relation says about the variables among its arguments -/
def argumentClues (kb : KnowledgeBase) (relation : String) (args : List Term) :
    List (String × PredicateClue) :=
  match kb.signature? relation with
  | none => []
  | some signature =>
    (args.zipIdx 1).filterMap fun (arg, position) =>
      match arg with
      | .atom a =>
        if Name.isVariable a && (signature.at? position).getD false then
          some (a, .place ((kb.argType? relation position).filter fun type =>
            (subclassBase? type).isNone))
        else none
      | .list _ => none

/-- what the first argument of `holds` says about itself -/
def appliedClue (t : Term) : List (String × PredicateClue) :=
  (t.name?.filter Name.isVariable).toList.map fun a => (a, .head)

/-- all clues, each with its variable -/
def predicateClues (kb : KnowledgeBase) : Term → List (String × PredicateClue)
  | .atom _ => []
  | .list [] => []
  | .list (.list xs :: args) =>
    (Term.list xs).predicateClues kb ++ args.flatMap (predicateClues kb)
  | .list (.atom h :: args) =>
    match _h : (Term.list (.atom h :: args)).binder? with
    | some b => b.body.predicateClues kb
    | none =>
      match Name.isVariable h with
      | true => (h, .head) :: args.flatMap (predicateClues kb)
      | false =>
        match formulaHolders.contains h with
        | true =>
          match args with
          | _ :: formula :: _ => formula.predicateClues kb
          | _ => []
        | false =>
          if h = holdsName then
            match args with
            | relation :: others => relation.appliedClue ++ others.flatMap (predicateClues kb)
            | [] => []
          else
            match Name.isOperator h with
            | true => args.flatMap (predicateClues kb)
            | false => argumentClues kb h args ++ args.flatMap (predicateClues kb)
termination_by t => sizeOf t
decreasing_by
  · decreasing_tactic
  · decreasing_tactic
  · exact sizeOf_body_lt ‹_›
  all_goals decreasing_tactic

theorem predicateClues_atom (kb : KnowledgeBase) (a : String) : (atom a).predicateClues kb = [] := by
  rw [predicateClues]

theorem predicateClues_toTerm (kb : KnowledgeBase) (b : Binder) :
    b.toTerm.predicateClues kb = b.body.predicateClues kb := by
  have h := binder?_toTerm b
  rw [Binder.toTerm] at h ⊢
  rw [predicateClues]
  split <;> simp_all

theorem predicateClues_list (kb : KnowledgeBase) {head : String} {args : List Term} :
    (list (.atom head :: args)).binder? = none → (list (.atom head :: args)).predicateClues kb =
      if Name.isVariable head then (head, .head) :: args.flatMap (predicateClues kb)
      else if formulaHolders.contains head then
        match args with
        | _ :: formula :: _ => formula.predicateClues kb
        | _ => []
      else if head = holdsName then
        match args with
        | relation :: others => relation.appliedClue ++ others.flatMap (predicateClues kb)
        | [] => []
      else if Name.isOperator head then args.flatMap (predicateClues kb)
      else argumentClues kb head args ++ args.flatMap (predicateClues kb) := by
  intro h
  rw [predicateClues]
  split
  · next b hb =>
    rw [h] at hb
    cases hb
  · cases Name.isVariable head <;> cases formulaHolders.contains head <;>
      cases Name.isOperator head <;> rcases args with _ | ⟨x, _ | ⟨y, rest⟩⟩ <;> rfl

/-- the variables that stand for relations, with what is known of them -/
def predicateVariables (kb : KnowledgeBase) (t : Term) : PredicateVariables :=
  (t.predicateClues kb).foldl (fun vs c => vs.add c.1 c.2) ∅

end Term

end OntologyPrep
