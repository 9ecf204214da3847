import Std.Data.TreeMap

/-!
# Remembered types

A type cache maps keys to types that have been computed, where the absence of a type is a result
too.  `TypeCache.getOrAdd` answers from the cache or computes the answer and remembers it.
-/

namespace OntologyPrep

/-- remembered results; a result may be that there is no type -/
structure TypeCache where
  entries : Std.TreeMap String (Option String)

namespace TypeCache

/-- nothing remembered -/
def empty : TypeCache := ⟨∅⟩

/-- the remembered result for a key -/
def get? (c : TypeCache) (key : String) : Option (Option String) := c.entries[key]?

/-- there is a result for the key -/
def contains (c : TypeCache) (key : String) : Bool := c.entries.contains key

/-- a result remembered, in place of an older one -/
def insert (c : TypeCache) (key : String) (result : Option String) : TypeCache :=
  ⟨c.entries.insert key result⟩

/-- the number of remembered results -/
def size (c : TypeCache) : Nat := c.entries.size

/-- the remembered result for a key, or else the computed one, which is then remembered -/
def getOrAdd (key : String) (compute : Unit → Option String) :
    StateM TypeCache (Option String) := fun c =>
  match c.get? key with
  | some result => (result, c)
  | none =>
    let result := compute ()
    (result, c.insert key result)

theorem get?_insert (c : TypeCache) (k key : String) (result : Option String) :
    (c.insert k result).get? key = if k = key then some result else c.get? key := by
  simp [get?, insert, Std.TreeMap.getElem?_insert]

theorem get?_getOrAdd (c : TypeCache) (key : String) (compute : Unit → Option String) :
    (getOrAdd key compute c).2.get? key = some (getOrAdd key compute c).1 := by
  unfold getOrAdd
  cases h : c.get? key with
  | some result => exact h
  | none => simp [get?_insert]

/-- the key for the type of an argument of a relation -/
def argumentKey (relation : String) (position : Nat) : String :=
  "findType:" ++ relation ++ ":" ++ toString position

/-- the key for the fact that a class is one -/
def sortalKey (cls : String) : String := "sortal:" ++ cls ++ ":SetOrClass"

end TypeCache

end OntologyPrep
