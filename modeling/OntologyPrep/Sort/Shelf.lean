import OntologyPrep.Distinct
import OntologyPrep.Name

/-!
# Constraints on variables

`Constraints` collects the classes that a variable must be an instance of, and those that it must be
a subclass of; a type with `+` at its end is of the second kind.

`Shelf` has a frame of constraints for every bound variable in scope, the innermost one first.
Entering a quantified formula pushes its variables, leaving it pops them, and a constraint goes to
the innermost frame of its variable.
-/

namespace OntologyPrep

/-- the class behind a type with `+` at its end -/
def subclassBase? (type : String) : Option String :=
  match type.toList.reverse with
  | '+' :: base => some (String.ofList base.reverse)
  | _ => none

/-- the classes that a variable must be an instance or a subclass of -/
structure Constraints where
  instances : List String
  subclasses : List String
  deriving DecidableEq, Repr

namespace Constraints

/-- no constraints -/
def empty : Constraints := ⟨[], []⟩

/-- no constraints -/
def isEmpty (c : Constraints) : Bool := c.instances.isEmpty && c.subclasses.isEmpty

/-- one more constraint -/
def add (c : Constraints) (type : String) : Constraints :=
  match subclassBase? type with
  | some base => { c with subclasses := Distinct.add c.subclasses base }
  | none => { c with instances := Distinct.add c.instances type }

end Constraints

/-- a bound variable with the constraints found so far -/
structure Frame where
  name : String
  quantifier : Quantifier
  constraints : Constraints
  deriving DecidableEq, Repr

/-- the bound variables in scope, the innermost one first -/
abbrev Shelf := List Frame

namespace Shelf

/-- the number of bound variables in scope -/
def depth (s : Shelf) : Nat := s.length

/-- one more frame for each of some variables, the last one innermost -/
def push (s : Shelf) (names : List String) (q : Quantifier) : Shelf :=
  (names.map fun name => ⟨name, q, .empty⟩).reverse ++ s

/-- the frames above a depth, the outermost one first, and the shelf without them -/
def pop (s : Shelf) (depth : Nat) : List Frame × Shelf :=
  ((s.take (s.length - depth)).reverse, s.drop (s.length - depth))

/-- a constraint for the innermost frame of a variable, if it has one -/
def constrain (name type : String) : Shelf → Option Shelf
  | [] => none
  | frame :: s =>
    if frame.name = name then
      some ({ frame with constraints := frame.constraints.add type } :: s)
    else (constrain name type s).map (frame :: ·)

theorem length_push (s : Shelf) (names : List String) (q : Quantifier) :
    (s.push names q).length = names.length + s.length := by
  simp [push]

end Shelf

end OntologyPrep
