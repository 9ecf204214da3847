import OntologyPrep.Term.Basic

/-!
# Fresh names

A `Supply` counts the names drawn so far; the counter is a 32-bit word and starts over at 0 after
the largest one.  A drawn name is a stem followed by the new value of the counter:

* `Supply.draw`      a name with a given stem, and `Supply.drawMany` several;
* `Supply.drawLike`  a variable of the same kind as a given name, `?VAR` or `@VAR`;
* `Supply.skolem`    a Skolem constant, or a Skolem function applied to the universals in scope.
-/

namespace OntologyPrep

/-- the counter of drawn names -/
structure Supply where
  counter : UInt32
  deriving DecidableEq, Repr, Inhabited

namespace Supply

/-- the supply after one more name -/
def next (s : Supply) : Supply := ⟨s.counter + 1⟩

/-- the number that the last drawn name ends with, as it is written -/
def index (s : Supply) : String := toString s.counter.toNat

/-- a fresh name with a given stem -/
def draw (stem : String) : StateM Supply String := fun s => (stem ++ s.next.index, s.next)

/-- some fresh names with a given stem -/
def drawMany (stem : String) : Nat → StateM Supply (List String)
  | 0 => pure []
  | n + 1 => do
    let name ← draw stem
    return name :: (← drawMany stem n)

/-- the stem of the fresh variables that stand for a name: its kind is kept -/
def variableStem (name : String) : String :=
  match Name.isRowVariable name with
  | true => "@VAR"
  | false => "?VAR"

/-- a fresh variable in place of a name -/
def drawLike (name : String) : StateM Supply String := draw (variableStem name)

/-- a fresh Skolem term that depends on the given universal variables -/
def skolem (universals : List String) : StateM Supply Term :=
  match universals with
  | [] => return .atom (← draw "Sk")
  | _ :: _ => return .app (← draw "SkFn") (universals.map .atom)

@[simp] theorem counter_next (s : Supply) : s.next.counter = s.counter + 1 := rfl

theorem draw_eq (stem : String) (s : Supply) : draw stem s = (stem ++ s.next.index, s.next) := rfl

theorem skolem_nil (s : Supply) : skolem [] s = (.atom ("Sk" ++ s.next.index), s.next) := rfl

theorem skolem_cons (u : String) (us : List String) (s : Supply) :
    skolem (u :: us) s = (.app ("SkFn" ++ s.next.index) ((u :: us).map .atom), s.next) := rfl

end Supply

end OntologyPrep
