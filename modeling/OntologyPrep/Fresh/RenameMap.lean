import Std.Data.TreeMap

/-!
# Rename maps

A rename map links each new name to the name that it replaced.  `RenameMap.resolve` follows the
links back to a name without one.  It takes at most one hop more than there are links: enough for
every chain without a cycle, and an end on every cycle.
-/

namespace OntologyPrep

/-- links from new names to old ones -/
structure RenameMap where
  links : Std.TreeMap String String

namespace RenameMap

/-- no links -/
def empty : RenameMap := ⟨∅⟩

/-- the name that a name replaced -/
def previous? (m : RenameMap) (name : String) : Option String := m.links[name]?

/-- the number of names with a link -/
def size (m : RenameMap) : Nat := m.links.size

/-- one more link, in place of an older one of the same name; a name is never linked to itself -/
def insert (m : RenameMap) (new old : String) : RenameMap :=
  if new = old then m else ⟨m.links.insert new old⟩

/-- the links of another map added, which win over older ones -/
def extend (m other : RenameMap) : RenameMap :=
  ⟨other.links.toList.foldl (fun links p => links.insert p.1 p.2) m.links⟩

/-- at most the given number of links followed -/
def follow (m : RenameMap) : Nat → String → String
  | 0, name => name
  | hops + 1, name =>
    match m.previous? name with
    | some old => m.follow hops old
    | none => name

/-- the name at the end of the chain of links -/
def resolve (m : RenameMap) (name : String) : String := m.follow (m.size + 1) name

/-- the name is the other one or leads back to it -/
def leadsTo (m : RenameMap) (name origin : String) : Bool :=
  name = origin || m.resolve name = origin

theorem previous?_insert (m : RenameMap) {new old : String} (h : new ≠ old) (name : String) :
    (m.insert new old).previous? name = if new = name then some old else m.previous? name := by
  simp [insert, h, previous?, Std.TreeMap.getElem?_insert]

theorem follow_of_previous?_eq_none {m : RenameMap} {name : String}
    (h : m.previous? name = none) (hops : Nat) : m.follow hops name = name := by
  cases hops with
  | zero => rfl
  | succ n => simp [follow, h]

theorem resolve_of_previous?_eq_none {m : RenameMap} {name : String}
    (h : m.previous? name = none) : m.resolve name = name :=
  follow_of_previous?_eq_none h _

end RenameMap

end OntologyPrep
