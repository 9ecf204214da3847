import OntologyPrep.Term.Basic
import Std.Data.TreeMap

/-!
# Statements by position and atom

An index has a column for every position; a column maps an atom to the statements that have it at
that position, in the order in which they came.  A statement is held as its place among the told terms.
-/

namespace OntologyPrep

/-- the places of statements, by the atoms that the statements have at a position -/
structure Index where
  columns : Std.TreeMap Nat (Std.TreeMap String (Array Nat))

namespace Index

/-- no statements -/
def empty : Index := ⟨∅⟩

/-- the places of the statements with an atom at a position -/
def find (ix : Index) (position : Nat) (name : String) : Array Nat :=
  (ix.columns.getD position ∅).getD name #[]

/-- the place of a statement entered for one position -/
def enter (ix : Index) (position : Nat) (name : String) (place : Nat) : Index :=
  let column := ix.columns.getD position ∅
  ⟨ix.columns.insert position (column.insert name ((column.getD name #[]).push place))⟩

/-- the place of a statement entered for each position, from the given one on, where one of the elements
is an atom -/
def enterFrom (ix : Index) (position place : Nat) : List Term → Index
  | [] => ix
  | .atom a :: items => (ix.enter position a place).enterFrom (position + 1) place items
  | .list _ :: items => ix.enterFrom (position + 1) place items

/-- one more statement, which stands at a place -/
def insert (ix : Index) (place : Nat) (t : Term) : Index := ix.enterFrom 0 place t.items

theorem find_empty (position : Nat) (name : String) : empty.find position name = #[] := by
  simp [find, empty]

theorem find_enter (ix : Index) (p q : Nat) (a b : String) (place : Nat) :
    (ix.enter p a place).find q b =
      if p = q ∧ a = b then (ix.find q b).push place else ix.find q b := by
  by_cases hp : p = q
  · subst hp
    by_cases ha : a = b
    · subst ha
      simp [find, enter]
    · simp [find, enter, Std.TreeMap.getD_insert, ha]
  · simp [find, enter, Std.TreeMap.getD_insert, hp]

end Index

end OntologyPrep
