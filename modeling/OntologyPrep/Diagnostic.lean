import OntologyPrep.Text.Position

/-!
# Diagnostics

A diagnostic has a code, a message, and, if they are known, the stretch of text and the source that
it is about.  The code decides whether it is a warning (`W-`) or an error, and which hint goes with
it; `Diagnostic.render` writes all of it on one line.
-/

namespace OntologyPrep

/-- something to tell the author of a text -/
structure Diagnostic where
  code : String
  message : String
  span : Option Span
  source : Option String
  deriving DecidableEq, Repr

namespace Diagnostic

/-- what to do about a diagnostic with a given code -/
def hintFor? (code : String) : Option String :=
  [("E-IO", "check the input path and read permissions"),
   ("E-CONFIG", "check the TOML keys and value types of the config file"),
   ("E-SYNTAX", "check that parentheses and double quotes are balanced"),
   ("E-ARITY", "compare the argument count with the relation's declared valence"),
   ("E-PREDVAR", "add instance/domain facts that let the predicate variable be instantiated"),
   ("W-EXPANSION-LIMIT", "narrow row variables or predicate variables in the axiom"),
   ("W-UNSUITABLE", "quantify free variables explicitly or remove non-ASCII text")].lookup code

/-- what to do about it -/
def hint? (d : Diagnostic) : Option String := hintFor? d.code

/-- a warning does not make a run fail -/
def isWarning (d : Diagnostic) : Bool := d.code.toList.take 2 == ['W', '-']

/-- source, code, message, place and hint on one line -/
def render (d : Diagnostic) : String :=
  (match d.source with
    | some source => source ++ ": "
    | none => "") ++
  d.code ++ ": " ++ d.message ++
  (match d.span with
    | some span => " at " ++ toString span.line ++ ":" ++ toString span.column
    | none => "") ++
  (match d.hint? with
    | some hint => " (hint: " ++ hint ++ ")"
    | none => "")

/-- the same diagnostic with its source -/
def withSource (d : Diagnostic) (source : Option String) : Diagnostic :=
  match source with
  | some s => { d with source := some s }
  | none => d

end Diagnostic

end OntologyPrep
