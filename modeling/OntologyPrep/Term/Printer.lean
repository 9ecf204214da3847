import OntologyPrep.Term.Basic

/-!
# Terms as text

`Term.render` writes an atom as it is spelled and a list in parentheses, with one space between
its elements.
-/

namespace OntologyPrep.Term

/-- the text of a term -/
def render : Term → String
  | .atom a => a
  | .list items => "(" ++ " ".intercalate (items.map render) ++ ")"

instance : ToString Term := ⟨render⟩

end OntologyPrep.Term
