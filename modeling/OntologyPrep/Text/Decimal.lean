/-!
# Decimal numerals

A numeral is a non-empty run of digits, leading zeros allowed.

* `Decimal.natural?`    a numeral and nothing else;
* `Decimal.position?`   an optional `+` and a numeral below `2 ^ 64`;
* `Decimal.valence?`    an optional sign and a numeral, of 32-bit range.
-/

namespace OntologyPrep.Decimal

/-- the value of a digit -/
def digit (c : Char) : Nat := c.toNat - '0'.toNat

/-- the number that a run of digits stands for -/
def natural? (cs : List Char) : Option Nat :=
  if !cs.isEmpty && cs.all Char.isDigit then
    some (cs.foldl (fun n c => 10 * n + digit c) 0)
  else none

/-- an argument position: a number of 64 bits without a minus sign -/
def position? (s : String) : Option Nat :=
  let digits := match s.toList with
    | '+' :: cs => cs
    | cs => cs
  (natural? digits).filter (· < UInt64.size)

/-- an argument count: a signed number of 32 bits -/
def valence? (s : String) : Option Int :=
  let value := match s.toList with
    | '-' :: cs => (natural? cs).map fun n => -(n : Int)
    | '+' :: cs => (natural? cs).map fun n => (n : Int)
    | cs => (natural? cs).map fun n => (n : Int)
  value.filter fun n => -2147483648 ≤ n && n < 2147483648

end OntologyPrep.Decimal
