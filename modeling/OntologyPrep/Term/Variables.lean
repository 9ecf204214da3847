import OntologyPrep.Term.Basic
import Std.Data.TreeSet

/-!
# Names that occur in a term

* `Term.atoms`            the atoms from left to right, heads and bound names included;
* `Term.variableNames`    the variables among them, each once, in the order of first occurrence;
* `Term.freeVariables`    the variables that no quantifier around them binds;
* `Term.rowVariables`     the row variables, sorted;
* `Term.hasVariableHead`  some application has a variable for a head.

A quantified formula contributes the free variables of its body only: the list of entries binds and
is not itself an occurrence (`Term.freeOccurrences_binder`).
-/

namespace OntologyPrep.Term

/-- all atoms, from left to right -/
def atoms : Term → List String
  | .atom a => [a]
  | .list items => items.flatMap atoms

@[simp] theorem atoms_atom (a : String) : (atom a).atoms = [a] := by rw [atoms]
@[simp] theorem atoms_list (xs : List Term) : (list xs).atoms = xs.flatMap atoms := by rw [atoms]

/-- the variables, each once, in the order in which they first occur -/
def variableNames (t : Term) : List String := (t.atoms.filter Name.isVariable).eraseDups

/-- the row variables, sorted -/
def rowVariables (t : Term) : List String :=
  (Std.TreeSet.ofList (t.atoms.filter Name.isRowVariable)).toList

/-- the atom occurs in the term -/
def containsAtom (t : Term) (name : String) : Bool := t.atoms.contains name

/-- some atom is a variable -/
def containsVariable (t : Term) : Bool := t.atoms.any Name.isVariable

/-- some atom is a row variable -/
def containsRowVariable (t : Term) : Bool := t.atoms.any Name.isRowVariable

/-- some atom is a string literal -/
def containsQuoted (t : Term) : Bool := t.atoms.any Name.isQuoted

/-- some atom is a Skolem symbol -/
def containsSkolem (t : Term) : Bool := t.atoms.any Name.isSkolem

/-- every character of every atom is an ASCII one -/
def isAscii (t : Term) : Bool := t.atoms.all Name.isAscii

/-! ## parts -/

/-- the term itself and all parts of it, a list before its elements -/
def subterms : Term → List Term
  | .atom a => [.atom a]
  | .list items => .list items :: items.flatMap subterms

theorem subterms_atom (a : String) : (atom a).subterms = [.atom a] := by rw [subterms]
theorem subterms_list (xs : List Term) :
    (list xs).subterms = .list xs :: xs.flatMap subterms := by rw [subterms]

theorem self_mem_subterms (t : Term) : t ∈ t.subterms := by
  cases t with
  | atom a => simp [subterms_atom]
  | list xs => simp [subterms_list]

/-- the term is the other one or has it as a part -/
def contains (t needle : Term) : Bool := t.subterms.contains needle

/-- some list in the term starts with a variable -/
def hasVariableHead (t : Term) : Bool := t.subterms.any fun s => s.first?.any isVariable

/-! ## free variables -/

/-- the occurrences of variables that are neither bound in the term nor among the given names -/
def freeOccurrences (bound : List String) : Term → List String
  | .atom a =>
    match Name.isVariable a && !bound.contains a with
    | true => [a]
    | false => []
  | .list items =>
    match _h : (Term.list items).binder? with
    | some b => b.body.freeOccurrences (b.names ++ bound)
    | none => items.flatMap (freeOccurrences bound)
termination_by t => sizeOf t
decreasing_by
  · exact sizeOf_body_lt ‹_›
  · decreasing_tactic

theorem freeOccurrences_atom (bound : List String) (a : String) :
    (atom a).freeOccurrences bound =
      if Name.isVariable a && !bound.contains a then [a] else [] := by
  rw [freeOccurrences]
  cases Name.isVariable a && !bound.contains a <;> rfl

theorem freeOccurrences_binder (bound : List String) (b : Binder) :
    b.toTerm.freeOccurrences bound = b.body.freeOccurrences (b.names ++ bound) := by
  have h := binder?_toTerm b
  rw [Binder.toTerm] at h ⊢
  rw [freeOccurrences]
  split <;> simp_all

theorem freeOccurrences_list (bound : List String) {xs : List Term}
    (h : (list xs).binder? = none) :
    (list xs).freeOccurrences bound = xs.flatMap (freeOccurrences bound) := by
  rw [freeOccurrences]
  split <;> simp_all

/-- the free variables, each once, in the order in which they first occur -/
def freeVariables (t : Term) : List String := (t.freeOccurrences []).eraseDups

end OntologyPrep.Term
