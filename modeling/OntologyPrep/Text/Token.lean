/-!
# Tokens of a text

The text is read once from left to right.  `Scanner` holds what has been read so far: the mode, the
byte offset, and the finished tokens.

* blanks (space, tab, line feed, form feed, carriage return) and comments (`;` to the end of the
  line) stand between tokens;
* a string literal runs from quote to quote, a backslash protecting the next character, and is a
  word that keeps its quotes and backslashes;
* any other word ends before a blank, a parenthesis, a semicolon or a quote.

`Token.scan` fails only on a string literal without an end.
-/

namespace OntologyPrep

/-- a token and the offset of its first byte -/
inductive Token where
  | opening (start : Nat)
  | closing (start : Nat)
  | word (text : String) (start : Nat)
  deriving DecidableEq, Repr

/-- what the last characters read belong to; the characters of a word come last one first -/
inductive Scanner.Mode where
  | between
  | comment
  | word (start : Nat) (chars : List Char)
  | quoted (start : Nat) (chars : List Char) (escaped : Bool)
  deriving DecidableEq, Repr

/-- the state of reading: mode, offset of the next byte, and tokens, the last one first -/
structure Scanner where
  mode : Scanner.Mode
  offset : Nat
  tokens : List Token
  deriving DecidableEq, Repr

namespace Scanner

/-- a character that only separates -/
def isBlank (c : Char) : Bool :=
  c = ' ' || c = '\t' || c = '\n' || c = '\x0c' || c = '\r'

/-- a character that a word may go on with -/
def isWordChar (c : Char) : Bool :=
  !(isBlank c || c = '(' || c = ')' || c = ';' || c = '\x22')

/-- before the first character -/
def start : Scanner := ⟨.between, 0, []⟩

/-- the text of the characters of a word -/
def spelling (chars : List Char) : String := String.ofList chars.reverse

/-- a character that stands between tokens -/
def separate (offset : Nat) (tokens : List Token) (c : Char) : Mode × List Token :=
  if isBlank c then (.between, tokens)
  else if c = ';' then (.comment, tokens)
  else if c = '(' then (.between, .opening offset :: tokens)
  else if c = ')' then (.between, .closing offset :: tokens)
  else if c = '\x22' then (.quoted offset [c] false, tokens)
  else (.word offset [c], tokens)

/-- the mode and the tokens after one more character -/
def absorb (s : Scanner) (c : Char) : Mode × List Token :=
  match s.mode with
  | .between => separate s.offset s.tokens c
  | .comment => (if c = '\n' then .between else .comment, s.tokens)
  | .word start chars =>
    if isWordChar c then (.word start (c :: chars), s.tokens)
    else separate s.offset (.word (spelling chars) start :: s.tokens) c
  | .quoted start chars true => (.quoted start (c :: chars) false, s.tokens)
  | .quoted start chars false =>
    if c = '\\' then (.quoted start (c :: chars) true, s.tokens)
    else if c = '\x22' then (.between, .word (spelling (c :: chars)) start :: s.tokens)
    else (.quoted start (c :: chars) false, s.tokens)

/-- one more character read -/
def step (s : Scanner) (c : Char) : Scanner :=
  let (mode, tokens) := s.absorb c
  ⟨mode, s.offset + c.utf8Size, tokens⟩

/-- the tokens at the end of the text, or the offset of the quote that is never closed -/
def finish (s : Scanner) : Except Nat (List Token) :=
  match s.mode with
  | .between | .comment => .ok s.tokens.reverse
  | .word start chars => .ok (Token.word (spelling chars) start :: s.tokens).reverse
  | .quoted start _ _ => .error start

end Scanner

/-- the tokens of a text, or the offset of the quote that is never closed -/
def Token.scan (text : String) : Except Nat (List Token) :=
  (text.toList.foldl Scanner.step Scanner.start).finish

end OntologyPrep
