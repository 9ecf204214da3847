import OntologyPrep.Term.Basic

/-!
# Argument counts

`Term.checkArity` compares every application in a term with the count that its relation wants, inner
applications before the outer one and from left to right, and reports the first that differs.

Not compared are applications of variables, of string literals and of relations without a fixed
count, and those with a row variable among the arguments.  A quantified formula stands for its body.
-/

namespace OntologyPrep

/-- an application with a wrong number of arguments -/
structure ArityError where
  relation : String
  expected : Nat
  found : Nat
  deriving DecidableEq, Repr

/-- the fault in words -/
def ArityError.message (e : ArityError) : String :=
  "arity mismatch in " ++ e.relation ++ ": expected " ++ toString e.expected ++
    " arguments, found " ++ toString e.found

namespace Term

/-- the count that a relation wants; none if it is unknown or variable -/
def expectedArity? (valence : String → Int) (relation : String) : Option Nat :=
  match Operator.ofName? relation with
  | some .implies | some .iff => some 2
  | _ => if 0 < valence relation then some (valence relation).toNat else none

/-- the list that holds these elements, as an application of its own head -/
def checkApplication (valence : String → Int) : List Term → Except ArityError Unit
  | .atom relation :: args =>
    match Name.isVariable relation || Name.isQuoted relation || args.any isRowVariable with
    | true => .ok ()
    | false =>
      match expectedArity? valence relation with
      | some expected =>
        if expected = args.length then .ok () else .error ⟨relation, expected, args.length⟩
      | none => .ok ()
  | _ => .ok ()

/-- every application in the term, inner ones first -/
def checkArity (valence : String → Int) : Term → Except ArityError Unit
  | .atom _ => .ok ()
  | .list items =>
    match _h : (Term.list items).binder? with
    | some b => b.body.checkArity valence
    | none => do
      let _ ← items.mapM (checkArity valence)
      checkApplication valence items
termination_by t => sizeOf t
decreasing_by
  · exact sizeOf_body_lt ‹_›
  · decreasing_tactic

theorem checkArity_atom (valence : String → Int) (a : String) :
    (atom a).checkArity valence = .ok () := by
  rw [checkArity]

theorem checkArity_toTerm (valence : String → Int) (b : Binder) :
    b.toTerm.checkArity valence = b.body.checkArity valence := by
  have h := binder?_toTerm b
  rw [Binder.toTerm] at h ⊢
  rw [checkArity]
  split <;> simp_all

theorem checkArity_list (valence : String → Int) {xs : List Term} (h : (list xs).binder? = none) :
    (list xs).checkArity valence =
      (xs.mapM (checkArity valence) >>= fun _ => checkApplication valence xs) := by
  rw [checkArity]
  split <;> simp_all

end Term

end OntologyPrep
