/-!
# Lines of a TOML file

The part of TOML 1.1 without tables, arrays and dates: every line is blank or gives a value to a key.
A key is bare or quoted; a value is a truth value, an integer, or a string on one line, in double
quotes with escapes or in single quotes without any.  An escape is a letter, or the code of a
character in two, four or eight digits of base 16.  A comment runs from `#` to the end of the line.
-/

namespace OntologyPrep.Toml

/-- the value of a key -/
inductive Value where
  | bool (b : Bool)
  | integer (n : Int)
  | text (s : String)
  deriving DecidableEq, Repr

/-- a key with its value -/
structure Entry where
  key : String
  value : Value
  deriving DecidableEq, Repr

/-! ## characters -/

/-- a character that separates within a line -/
def isBlank (c : Char) : Bool := c = ' ' || c = '\t'

/-- a character that may stand in a string or a comment: no control character but the tab -/
def isPlain (c : Char) : Bool := c = '\t' || (' '.toNat ≤ c.toNat && c.toNat ≠ 127)

/-- a character of a bare key -/
def isKeyChar (c : Char) : Bool := c.isAlphanum || c = '_' || c = '-'

/-- the value of a digit in the bases up to 16 -/
def digit? (c : Char) : Option Nat :=
  if c.isDigit then some (c.toNat - '0'.toNat)
  else if 'a' ≤ c && c ≤ 'f' then some (c.toNat - 'a'.toNat + 10)
  else if 'A' ≤ c && c ≤ 'F' then some (c.toNat - 'A'.toNat + 10)
  else none

/-! ## integers -/

/-- the digits of a base, with single underscores between them allowed -/
def digits? (base : Nat) : List Char → Option (List Nat)
  | [] => none
  | c :: cs =>
    match (digit? c).filter (· < base), cs with
    | none, _ => none
    | some d, [] => some [d]
    | some d, '_' :: rest => (digits? base rest).map (d :: ·)
    | some d, rest => (digits? base rest).map (d :: ·)

/-- the number that digits stand for -/
def ofDigits (base : Nat) (ds : List Nat) : Nat := ds.foldl (fun n d => base * n + d) 0

/-- a number in decimal digits, without zeros in front -/
def natural? (cs : List Char) : Option Nat :=
  match digits? 10 cs with
  | some (0 :: _ :: _) => none
  | some ds => some (ofDigits 10 ds)
  | none => none

/-- a decimal number with a sign or without, or a number in base 16, 8 or 2 -/
def integer? : List Char → Option Int
  | '+' :: cs => (natural? cs).map fun n => (n : Int)
  | '-' :: cs => (natural? cs).map fun n => -(n : Int)
  | '0' :: 'x' :: cs => (digits? 16 cs).map fun ds => (ofDigits 16 ds : Int)
  | '0' :: 'o' :: cs => (digits? 8 cs).map fun ds => (ofDigits 8 ds : Int)
  | '0' :: 'b' :: cs => (digits? 2 cs).map fun ds => (ofDigits 2 ds : Int)
  | cs => (natural? cs).map fun n => (n : Int)

/-! ## strings -/

/-- the character with a code in base 16; surrogates are none -/
def codePoint? (cs : List Char) : Option Char := do
  let n ← cs.foldlM (fun n c => (digit? c).map (16 * n + ·)) 0
  if n.isValidChar then return Char.ofNat n else none

/-- the character that a letter after a backslash stands for -/
def escape? : Char → Option Char
  | 'b' => some '\x08'
  | 't' => some '\t'
  | 'n' => some '\n'
  | 'f' => some '\x0c'
  | 'r' => some '\r'
  | 'e' => some '\x1b'
  | '\x22' => some '\x22'
  | '\\' => some '\\'
  | _ => none

/-- the rest of a string in double quotes, and what stands behind it -/
def quoted? : List Char → Option (List Char × List Char)
  | [] => none
  | '\x22' :: rest => some ([], rest)
  | '\\' :: 'x' :: a :: b :: rest => do
    let x ← codePoint? [a, b]
    let r ← quoted? rest
    return (x :: r.1, r.2)
  | '\\' :: 'u' :: a :: b :: c :: d :: rest => do
    let x ← codePoint? [a, b, c, d]
    let r ← quoted? rest
    return (x :: r.1, r.2)
  | '\\' :: 'U' :: a :: b :: c :: d :: e :: f :: g :: h :: rest => do
    let x ← codePoint? [a, b, c, d, e, f, g, h]
    let r ← quoted? rest
    return (x :: r.1, r.2)
  | '\\' :: c :: rest => do
    let x ← escape? c
    let r ← quoted? rest
    return (x :: r.1, r.2)
  | c :: rest => do
    if !isPlain c || c = '\\' then none
    let r ← quoted? rest
    return (c :: r.1, r.2)

/-- the rest of a string in single quotes, and what stands behind it -/
def literal? : List Char → Option (List Char × List Char)
  | [] => none
  | '\x27' :: rest => some ([], rest)
  | c :: rest => do
    if !isPlain c then none
    let r ← literal? rest
    return (c :: r.1, r.2)

/-! ## lines -/

/-- a key at the start of some characters, and what stands behind it -/
def key? : List Char → Option (List Char × List Char)
  | '\x22' :: cs => quoted? cs
  | '\x27' :: cs => literal? cs
  | cs =>
    match cs.span isKeyChar with
    | ([], _) => none
    | r => some r

/-- the value that a word spells -/
def word? (cs : List Char) : Option Value :=
  if cs = "true".toList then some (.bool true)
  else if cs = "false".toList then some (.bool false)
  else (integer? cs).map .integer

/-- a value at the start of some characters, and what stands behind it -/
def value? : List Char → Option (Value × List Char)
  | '\x22' :: cs => (quoted? cs).map fun r => (.text (String.ofList r.1), r.2)
  | '\x27' :: cs => (literal? cs).map fun r => (.text (String.ofList r.1), r.2)
  | cs =>
    let r := cs.span fun c => !isBlank c && c ≠ '#'
    (word? r.1).map fun v => (v, r.2)

/-- nothing stands here but blanks and a comment -/
def isEnd (cs : List Char) : Bool :=
  match cs.dropWhile isBlank with
  | [] => true
  | '#' :: comment => comment.all isPlain
  | _ => false

/-- the equals sign between key and value taken away -/
def afterEquals? (cs : List Char) : Option (List Char) :=
  match cs.dropWhile isBlank with
  | '=' :: rest => some (rest.dropWhile isBlank)
  | _ => none

/-- what a line says; nothing if it is blank -/
def line? (cs : List Char) : Option (Option Entry) :=
  if isEnd cs then some none
  else do
    let k ← key? (cs.dropWhile isBlank)
    let v ← value? (← afterEquals? k.2)
    if isEnd v.2 then return some ⟨String.ofList k.1, v.1⟩ else none

/-! ## files -/

/-- the lines of a text; a line ends with a line feed, or a carriage return and a line feed -/
def lines : List Char → List (List Char)
  | [] => [[]]
  | '\n' :: rest => [] :: lines rest
  | '\r' :: '\n' :: rest => [] :: lines rest
  | c :: rest =>
    match lines rest with
    | [] => [[c]]
    | line :: others => (c :: line) :: others

/-- the mark that a text may start with -/
def byteOrderMark : Char := '\ufeff'

/-- the characters of a text behind the byte order mark -/
def content (text : String) : List Char :=
  match text.toList with
  | c :: cs => if c = byteOrderMark then cs else c :: cs
  | [] => []

/-- the entries of a text in their order, or the number of the first line that says nothing -/
def entries (text : String) : Except Nat (List Entry) := do
  let found ← ((lines (content text)).zipIdx 1).mapM fun (line, number) =>
    match line? line with
    | some e => Except.ok e
    | none => Except.error number
  return found.filterMap id

end OntologyPrep.Toml
