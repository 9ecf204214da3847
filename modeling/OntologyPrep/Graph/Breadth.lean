import Std.Data.TreeSet

/-!
# Breadth-first search

`Graph.reach` lists the names that can be reached from a start, each once, a name before all those
that need more steps.  `bound` is the number of names that the search may visit: a graph with fewer
names than that, the start included, is searched completely.
-/

namespace OntologyPrep.Graph

/-- the names that have not been seen, each once, and all names seen with them -/
def discover (seen : Std.TreeSet String) : List String → List String × Std.TreeSet String
  | [] => ([], seen)
  | x :: xs =>
    if seen.contains x then discover seen xs
    else
      let r := discover (seen.insert x) xs
      (x :: r.1, r.2)

/-- the search from a queue of seen names, with the names in the order of their visit -/
def explore (next : String → List String) :
    (bound : Nat) → (seen : Std.TreeSet String) → (queue : List String) → List String
  | 0, _, _ => []
  | _ + 1, _, [] => []
  | bound + 1, seen, x :: queue =>
    let r := discover seen (next x)
    x :: explore next bound r.2 (queue ++ r.1)

/-- the names that can be reached from a start, the start first -/
def reach (next : String → List String) (bound : Nat) (start : String) : List String :=
  explore next bound (Std.TreeSet.ofList [start]) [start]

end OntologyPrep.Graph
