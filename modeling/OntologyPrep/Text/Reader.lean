import OntologyPrep.Diagnostic
import OntologyPrep.Term.Basic
import OntologyPrep.Text.Token

/-!
# Terms of a text

The tokens are read from left to right by recursive descent: a word is a term, and an opening
parenthesis starts a list, whose elements are read up to the closing one.  A text is refused for a
string literal without an end, a closing parenthesis where a term should start, or an opening one
without a partner, and then the innermost one is named.  No tokens where a term should start would be
a fault as well.

* `Reader.term`        the term at the front of some tokens;
* `Reader.elements`    the elements of a list;
* `Reader.terms`       the terms of all tokens;
* `Term.readLocated`   the terms of a text with the offset of each;
* `Term.readAll`       the terms of a text;
* `Term.read`          the term of a text that holds exactly one.
-/

namespace OntologyPrep

/-- why a text is not a sequence of terms, or not a single one -/
inductive SyntaxError where
  | unterminatedString (start : Nat)
  | unexpectedClosing (start : Nat)
  | unclosedList (start : Nat)
  | unexpectedEnd
  | notSingle (count : Nat)
  deriving DecidableEq, Repr

namespace SyntaxError

/-- the cause in words -/
def message : SyntaxError → String
  | unterminatedString _ => "unterminated string literal"
  | unexpectedClosing _ => "unexpected ')'"
  | unclosedList _ => "unbalanced parentheses"
  | unexpectedEnd => "unexpected EOF"
  | notSingle 0 => "expected one formula, found none"
  | notSingle n => "expected one formula, found " ++ toString n

/-- the offsets between which the fault lies -/
def bounds (text : String) : SyntaxError → Nat × Nat
  | unterminatedString start => (start, text.utf8ByteSize)
  | unexpectedClosing start => (start, start + 1)
  | unclosedList start => (start, start + 1)
  | unexpectedEnd => (text.utf8ByteSize, text.utf8ByteSize)
  | notSingle _ => (0, text.utf8ByteSize)

/-- the diagnostic for a fault of a text -/
def toDiagnostic (text : String) (e : SyntaxError) : Diagnostic where
  code := "E-SYNTAX"
  message := e.message
  span := some (Span.of text (e.bounds text).1 (e.bounds text).2)
  source := none

end SyntaxError

/-- a term and the offset of its first byte -/
structure Located where
  start : Nat
  term : Term
  deriving DecidableEq, Repr

/-- the token ends a list -/
def Token.isClosing : Token → Bool
  | .closing _ => true
  | _ => false

namespace Reader

/-- the tokens that are left, fewer than a bound -/
abbrev Rest (bound : Nat) := { tokens : List Token // tokens.length < bound }

mutual

/-- the term at the front of some tokens, and the tokens behind it -/
def term : (tokens : List Token) → Except SyntaxError (Located × Rest tokens.length)
  | [] => .error .unexpectedEnd
  | .word text start :: tokens => .ok (⟨start, .atom text⟩, ⟨tokens, Nat.lt_add_one _⟩)
  | .closing start :: _ => .error (.unexpectedClosing start)
  | .opening start :: tokens =>
    match elements start [] tokens (Nat.lt_add_one tokens.length) with
    | .ok (items, rest) => .ok (⟨start, .list items⟩, rest)
    | .error e => .error e
termination_by tokens => (tokens.length, 0)

/-- the elements up to the closing parenthesis of the list that starts at an offset, and the tokens
behind it; `items` are those read before, the last one first -/
def elements {bound : Nat} (start : Nat) (items : List Term) :
    (tokens : List Token) → tokens.length < bound → Except SyntaxError (List Term × Rest bound)
  | [], _ => .error (.unclosedList start)
  | t :: tokens, h =>
    if t.isClosing then .ok (items.reverse, ⟨tokens, Nat.lt_of_succ_lt h⟩)
    else
      match term (t :: tokens) with
      | .ok (found, rest) => elements start (found.term :: items) rest (Nat.lt_trans rest.2 h)
      | .error e => .error e
termination_by tokens => (tokens.length, 1)
decreasing_by
  · exact Prod.Lex.right _ (Nat.lt_add_one 0)
  · exact Prod.Lex.left _ _ rest.2

end

/-- the terms that some tokens spell; `found` are those read before, the last one first -/
def terms (found : List Located) : (tokens : List Token) → Except SyntaxError (List Located)
  | [] => .ok found.reverse
  | t :: tokens =>
    match term (t :: tokens) with
    | .ok (next, rest) => terms (next :: found) rest
    | .error e => .error e
termination_by tokens => tokens.length
decreasing_by exact rest.2

end Reader

namespace Term

/-- the terms of a text and where they start -/
def readLocated (text : String) : Except SyntaxError (List Located) :=
  match Token.scan text with
  | .ok tokens => Reader.terms [] tokens
  | .error start => .error (.unterminatedString start)

/-- the terms of a text -/
def readAll (text : String) : Except SyntaxError (List Term) :=
  (readLocated text).map fun found => found.map Located.term

/-- the term of a text that holds exactly one -/
def read (text : String) : Except SyntaxError Term :=
  match readAll text with
  | .ok [t] => .ok t
  | .ok ts => .error (.notSingle ts.length)
  | .error e => .error e

end Term

end OntologyPrep
