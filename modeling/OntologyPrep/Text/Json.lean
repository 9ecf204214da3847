/-!
# JSON texts

`Json.render` writes a value over several lines, two spaces deeper for each array or object around
it; an empty array or object stays on its line.  The fields of an object come sorted by key, and
characters beyond ASCII are written as they are.
-/

namespace OntologyPrep

/-- a JSON value; its numbers are natural ones -/
inductive Json where
  | null
  | number (n : Nat)
  | text (s : String)
  | array (items : List Json)
  | object (fields : List (String × Json))
  deriving Repr

namespace Json

/-- the object with some fields, sorted by key -/
def ofFields (fields : List (String × Json)) : Json :=
  .object (fields.mergeSort fun f g => f.1 ≤ g.1)

/-- a value that may be absent -/
def ofOption {α : Type} (f : α → Json) : Option α → Json
  | some x => f x
  | none => .null

/-! ## strings -/

/-- a digit in base 16 -/
def hexDigit (n : Nat) : Char := if n < 10 then Char.ofNat (48 + n) else Char.ofNat (87 + n)

/-- a character inside a string -/
def escape (c : Char) : List Char :=
  if c = '\x22' then ['\\', '\x22']
  else if c = '\\' then ['\\', '\\']
  else if c = '\x08' then ['\\', 'b']
  else if c = '\t' then ['\\', 't']
  else if c = '\n' then ['\\', 'n']
  else if c = '\x0c' then ['\\', 'f']
  else if c = '\r' then ['\\', 'r']
  else if c.toNat < 32 then ['\\', 'u', '0', '0', hexDigit (c.toNat / 16), hexDigit (c.toNat % 16)]
  else [c]

/-- a text in quotes -/
def quote (s : String) : String :=
  "\"" ++ String.ofList (s.toList.flatMap escape) ++ "\""

/-! ## values -/

/-- the start of a line at a depth -/
def newLine (depth : Nat) : String := "\n" ++ String.ofList (List.replicate (2 * depth) ' ')

/-- the parts of an array or object between its brackets, each on a line of its own -/
def enclose (opening closing : String) (depth : Nat) (parts : List String) : String :=
  if parts.isEmpty then opening ++ closing
  else
    opening ++ newLine (depth + 1) ++ ("," ++ newLine (depth + 1)).intercalate parts ++
      newLine depth ++ closing

mutual

/-- a value at a depth -/
def renderAt (depth : Nat) : Json → String
  | null => "null"
  | number n => toString n
  | text s => quote s
  | array items => enclose "[" "]" depth (renderItems (depth + 1) items)
  | object fields => enclose "\x7b" "\x7d" depth (renderFields (depth + 1) fields)

/-- the items of an array -/
def renderItems (depth : Nat) : List Json → List String
  | [] => []
  | x :: xs => renderAt depth x :: renderItems depth xs

/-- the fields of an object -/
def renderFields (depth : Nat) : List (String × Json) → List String
  | [] => []
  | (key, x) :: fields => (quote key ++ ": " ++ renderAt depth x) :: renderFields depth fields

end

/-- a value as a text -/
def render (x : Json) : String := x.renderAt 0

end Json

end OntologyPrep
