/-!
# Names: the atoms of the language

An atom is a string, and its spelling says what it is:

* `Operator`, `Quantifier`     the reserved words, with their spellings;
* `Name.isVariable`            a sigil `?` (one individual) or `@` (a row of individuals), then a name;
* `Name.isSkolem`              `Sk` or `SkFn` and a number, the spelling of a Skolem symbol;
* `Name.isQuoted`              a string literal, kept with its quotes.

`Operator.ofName?_name` and `Operator.name_of_ofName?` say that spelling and reading of an operator
are inverse to each other.
-/

namespace OntologyPrep

/-! ## reserved words -/

/-- the two quantifiers -/
inductive Quantifier where
  | all
  | any
  deriving DecidableEq, Repr, Inhabited

/-- the logical operators -/
inductive Operator where
  | conj
  | disj
  | neg
  | implies
  | iff
  | quant (q : Quantifier)
  deriving DecidableEq, Repr

namespace Quantifier

/-- how a quantifier is spelled -/
def name : Quantifier → String
  | all => "forall"
  | any => "exists"

/-- the quantifier that a name spells -/
def ofName? (s : String) : Option Quantifier :=
  if s = "forall" then some all else if s = "exists" then some any else none

@[simp] theorem ofName?_name (q : Quantifier) : ofName? q.name = some q := by
  cases q <;> decide

theorem name_of_ofName? {s : String} {q : Quantifier} (h : ofName? s = some q) : q.name = s := by
  unfold ofName? at h
  split at h
  · next hs => cases h; exact hs.symm
  · split at h
    · next hs => cases h; exact hs.symm
    · cases h

/-- the other quantifier, which a negation turns this one into -/
def dual : Quantifier → Quantifier
  | all => any
  | any => all

@[simp] theorem dual_dual (q : Quantifier) : q.dual.dual = q := by cases q <;> rfl

end Quantifier

namespace Operator

/-- how an operator is spelled -/
def name : Operator → String
  | conj => "and"
  | disj => "or"
  | neg => "not"
  | implies => "=>"
  | iff => "<=>"
  | quant q => q.name

/-- the operator that a name spells -/
def ofName? (s : String) : Option Operator :=
  if s = "and" then some conj
  else if s = "or" then some disj
  else if s = "not" then some neg
  else if s = "=>" then some implies
  else if s = "<=>" then some iff
  else (Quantifier.ofName? s).map quant

@[simp] theorem ofName?_name (o : Operator) : ofName? o.name = some o := by
  rcases o with _ | _ | _ | _ | _ | (_ | _) <;> decide

theorem name_of_ofName? {s : String} {o : Operator} (h : ofName? s = some o) : o.name = s := by
  unfold ofName? at h
  repeat
    split at h
    · next hs => cases h; exact hs.symm
  obtain ⟨q, hq, rfl⟩ := Option.map_eq_some_iff.mp h
  exact Quantifier.name_of_ofName? hq

end Operator

/-- the truth constant -/
def trueName : String := "True"

/-- the falsity constant -/
def falseName : String := "False"

namespace Name

/-- the name is one of the logical operators -/
def isOperator (s : String) : Bool := (Operator.ofName? s).isSome

/-- the name is one of the two quantifiers -/
def isQuantifier (s : String) : Bool := (Quantifier.ofName? s).isSome

theorem isOperator_of_isQuantifier {s : String} (h : isQuantifier s = true) :
    isOperator s = true := by
  obtain ⟨q, hq⟩ := Option.isSome_iff_exists.mp h
  rw [← Quantifier.name_of_ofName? hq, isOperator]
  cases q <;> decide

/-! ## variables -/

/-- a variable for one individual: `?` and at least one more character -/
def isPlainVariable (s : String) : Bool :=
  match s.toList with
  | '?' :: _ :: _ => true
  | _ => false

/-- a variable for a row of individuals: `@` and at least one more character -/
def isRowVariable (s : String) : Bool :=
  match s.toList with
  | '@' :: _ :: _ => true
  | _ => false

/-- a variable of either kind -/
def isVariable (s : String) : Bool := isPlainVariable s || isRowVariable s

theorem isVariable_of_isRowVariable {s : String} (h : isRowVariable s = true) :
    isVariable s = true := by
  simp [isVariable, h]

/-! ## other spellings -/

/-- a decimal numeral: at least one character, digits only -/
def isNumeral (cs : List Char) : Bool := !cs.isEmpty && cs.all Char.isDigit

/-- a Skolem symbol: `Sk` for a constant or `SkFn` for a function, then a number -/
def isSkolem (s : String) : Bool :=
  match s.toList with
  | 'S' :: 'k' :: 'F' :: 'n' :: rest => isNumeral rest
  | 'S' :: 'k' :: rest => isNumeral rest
  | _ => false

/-- a string literal: it opens with a quote and closes with another one -/
def isQuoted (s : String) : Bool :=
  match s.toList with
  | '\x22' :: rest => rest.getLast? == some '\x22'
  | _ => false

/-- every character is an ASCII one -/
def isAscii (s : String) : Bool := s.toList.all fun c => c.toNat < 128

end Name

end OntologyPrep
