import OntologyPrep.Term.Printer
import OntologyPrep.Text.Reader

/-!
# Formulas

A formula is a text, the term that it spells if it spells exactly one, where it comes from, and what
there is to tell about it.  Two formulas are equal in the sense of `Formula.sameAs` if text and term
are; origin and diagnostics do not count.
-/

namespace OntologyPrep

/-- a text with its term, its origin and its diagnostics -/
structure Formula where
  text : String
  term : Option Term
  source : Option String
  line : Option Nat
  diagnostics : List Diagnostic
  deriving DecidableEq, Repr

namespace Formula

/-- the formula of a text, of no known origin; it has a term only if the text is a single term -/
def ofText (text : String) : Formula where
  text := text
  term := (Term.read text).toOption
  source := none
  line := none
  diagnostics := []

/-- the formula that a term is, of no known origin -/
def ofTerm (t : Term) : Formula where
  text := t.render
  term := some t
  source := none
  line := none
  diagnostics := []

/-- the formula with an origin -/
def located (f : Formula) (source : String) (line : Nat) : Formula :=
  { f with source := some source, line := some line }

/-- the formula of another term with the same origin -/
def derive (f : Formula) (t : Term) : Formula :=
  { ofTerm t with source := f.source, line := f.line }

/-- the formula with nothing to tell -/
def withoutDiagnostics (f : Formula) : Formula := { f with diagnostics := [] }

/-- the whole text, placed at the line where the formula starts -/
def span? (f : Formula) : Option Span :=
  f.line.map fun line => ⟨0, f.text.utf8ByteSize, line, 1⟩

/-- one more thing to tell, with the place and the source of the formula -/
def report (f : Formula) (code message : String) : Formula :=
  { f with diagnostics := f.diagnostics ++ [⟨code, message, f.span?, f.source⟩] }

/-- equal but for origin and diagnostics -/
def sameAs (f g : Formula) : Bool := f.term = g.term && f.text = g.text

/-- the formulas of a text, each with the line where it starts and the source of them all -/
def readAll (text : String) (source : Option String) : Except SyntaxError (List Formula) :=
  (Term.readLocated text).map fun found =>
    found.map fun t =>
      { ofTerm t.term with
        source := source, line := some (Position.ofOffset text t.start).line }

end Formula

end OntologyPrep
