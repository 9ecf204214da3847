/-!
# Places in a text

An offset counts bytes of the UTF-8 text from 0; a line and a column count lines and characters
from 1.  `Position.ofOffset` turns the first into the second, and `Span.of` does so for the start of
a stretch of text.
-/

namespace OntologyPrep

/-- a line and a column, both counted from 1 -/
structure Position where
  line : Nat
  column : Nat
  deriving DecidableEq, Repr

namespace Position

/-- where a text begins -/
def origin : Position := ⟨1, 1⟩

/-- the place after a character: a line feed starts the next line -/
def advance (p : Position) (c : Char) : Position :=
  if c = '\n' then ⟨p.line + 1, 1⟩ else ⟨p.line, p.column + 1⟩

/-- the place after those of the characters that begin within the given number of bytes -/
def walk (p : Position) : List Char → Nat → Position
  | [], _ => p
  | _ :: _, 0 => p
  | c :: cs, bytes + 1 => (p.advance c).walk cs (bytes + 1 - c.utf8Size)

/-- the place of a byte offset; past the end, the end of the text -/
def ofOffset (text : String) (offset : Nat) : Position := origin.walk text.toList offset

end Position

/-- a stretch of text in bytes, with the place where it starts -/
structure Span where
  start : Nat
  stop : Nat
  line : Nat
  column : Nat
  deriving DecidableEq, Repr

/-- the stretch of a text between two offsets -/
def Span.of (text : String) (start stop : Nat) : Span :=
  let p := Position.ofOffset text start
  ⟨start, stop, p.line, p.column⟩

end OntologyPrep
