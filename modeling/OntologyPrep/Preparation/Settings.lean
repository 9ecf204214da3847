/-!
# Settings

What can be chosen about the preparation of formulas.  Every setting has a value of its own if it is
not chosen.
-/

namespace OntologyPrep

/-- the choices for a run -/
structure Settings where
  /-- guard quantified variables with the types of the arguments that they fill -/
  addTypeRestrictions : Bool := false
  /-- leave applied variables alone -/
  holdsPrefix : Bool := false
  /-- drop formulas with a wrong number of arguments -/
  checkArity : Bool := true
  /-- the largest number of formulas that one formula may turn into -/
  expansionLimit : Nat := 2000
  /-- what is written for a character that is not an ASCII one -/
  placeholder : String := "_"
  deriving DecidableEq, Repr

namespace Settings

/-- a text with the placeholder for every character that is not an ASCII one -/
def toAscii (s : Settings) (text : String) : String :=
  String.ofList (text.toList.flatMap fun c =>
    if c.toNat < 128 then [c] else s.placeholder.toList)

end Settings

end OntologyPrep
