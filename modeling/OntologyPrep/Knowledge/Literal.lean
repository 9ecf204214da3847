import OntologyPrep.Term.Printer
import OntologyPrep.Term.Substitution
import OntologyPrep.Term.Variables
import Std.Data.TreeMap

/-!
# Literals that ask

A literal is a relation with arguments, some of which may hold variables.  `Literal.bindings?`
matches it against a statement: the variables get the parts of the statement that they stand for,
the same variable the same part everywhere.  Constants match themselves only; a variable in the
statement is a constant here.
-/

namespace OntologyPrep

/-- what variables stand for -/
abbrev Bindings := Std.TreeMap String Term

mutual

/-- a pattern matched against a term, with some variables already bound -/
def Term.match? (pattern value : Term) (env : Bindings) : Option Bindings :=
  match pattern, value with
  | .atom a, value =>
    match Name.isVariable a with
    | true =>
      match env[a]? with
      | some bound => if bound = value then some env else none
      | none => some (env.insert a value)
    | false => if value = .atom a then some env else none
  | .list _, .atom _ => none
  | .list ps, .list vs => Term.matchAll? ps vs env

/-- patterns matched against as many terms, from left to right -/
def Term.matchAll? (patterns values : List Term) (env : Bindings) : Option Bindings :=
  match patterns, values with
  | [], [] => some env
  | p :: ps, v :: vs =>
    match Term.match? p v env with
    | some env' => Term.matchAll? ps vs env'
    | none => none
  | _, _ => none

end

/-- a relation with arguments -/
structure Literal where
  relation : String
  args : List Term
  deriving DecidableEq, Repr

namespace Literal

/-- the application of a symbol as a literal -/
def ofTerm? (t : Term) : Option Literal := t.head?.map fun r => ⟨r, t.args⟩

/-- the literal as a term -/
def toTerm (l : Literal) : Term := .app l.relation l.args

/-- the relation and the arguments as texts -/
def toStrings (l : Literal) : List String := l.relation :: l.args.map Term.render

/-- the variables, each once, in the order of first occurrence -/
def variableNames (l : Literal) : List String := l.toTerm.variableNames

/-- what the variables stand for when the literal is matched against a statement -/
def bindings? (l : Literal) (statement : Term) : Option Bindings :=
  if statement.head? = some l.relation then Term.matchAll? l.args statement.args ∅ else none

/-- the literal matches the statement -/
def accepts (l : Literal) (statement : Term) : Bool := (l.bindings? statement).isSome

end Literal

end OntologyPrep
