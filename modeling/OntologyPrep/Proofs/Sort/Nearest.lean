import OntologyPrep.Proofs.Graph.Nearest
import OntologyPrep.Proofs.Sort.Declared

/-!
# The nearest declared type

The search for the type of an argument visits relations along told `subrelation` statements until one
of them has a type of its own that says something.  Its rounds come to an end, on cycles too, since
every relation but the first is named by a told statement; and the type that is found is that of a
relation fewest statements away (`KnowledgeBase.searchType_nearest`).
-/

namespace OntologyPrep.KnowledgeBase

variable {kb : KnowledgeBase} {relation type : String} {position : Nat}

/-- a relation leads to the relations that a told statement puts it under -/
theorem mem_superrelationsOf_iff (hc : kb.Complete) {sub sup : String} :
    sup ∈ kb.superrelationsOf sub ↔ kb.ToldOf "subrelation" sub sup := by
  rw [superrelationsOf, List.mem_filterMap]
  refine exists_congr fun t => ?_
  rw [hc.mem_having_iff, and_assoc, and_assoc]

theorem leads_superrelationsOf (hc : kb.Complete) :
    Graph.Leads kb.superrelationsOf = kb.ToldOf "subrelation" := by
  funext sub sup
  exact propext (mem_superrelationsOf_iff hc)

/-- the relation itself has a type at the position, and it is not that of everything -/
def TypedAt (kb : KnowledgeBase) (position : Nat) (relation type : String) : Prop :=
  kb.argType? relation position = some type ∧ type ≠ "Entity" ∧ type ≠ "Entity+"

/-- the type that ends the search at a relation -/
def informativeType? (kb : KnowledgeBase) (position : Nat) (relation : String) : Option String :=
  (kb.argType? relation position).filter isInformative

theorem informativeType?_eq_some_iff :
    kb.informativeType? position relation = some type ↔ kb.TypedAt position relation type := by
  have hinformative : isInformative type = true ↔ type ≠ "Entity" ∧ type ≠ "Entity+" := by
    rw [isInformative, Bool.and_eq_true, decide_eq_true_iff, decide_eq_true_iff]
    rfl
  rw [informativeType?, Option.filter_eq_some_iff, hinformative, TypedAt]

/-- the rounds of the search stop, with what is found and nothing else -/
theorem stops_iff_searchType (hf : kb.Faithful) (relation : String) (position : Nat)
    (r : Option String) :
    Graph.Stops kb.superrelationsOf (kb.informativeType? position) (.ofList [relation]) [relation] r ↔
      r = kb.searchType relation position :=
  (hf.within_superrelationsOf relation).fits.stops_iff

/-- The rounds of the search for a type stop, whatever has been told, and with one result only.  A type is
found exactly if some relation that can be reached along told statements has one of its own there, other
than that of everything; and the type found is the one of such a relation fewest statements away. -/
theorem searchType_nearest (told : List Term) (relation : String) (position : Nat) :
    (∀ r, Graph.Stops (empty.tellAll told).superrelationsOf
        ((empty.tellAll told).informativeType? position) (.ofList [relation]) [relation] r ↔
      r = (empty.tellAll told).searchType relation position) ∧
    ((∃ type, (empty.tellAll told).searchType relation position = some type) ↔
      ∃ above type, Relation.ReflTransGen ((empty.tellAll told).ToldOf "subrelation") relation above ∧
        (empty.tellAll told).TypedAt position above type) ∧
    ∀ type, (empty.tellAll told).searchType relation position = some type →
      ∃ n above, Graph.Steps ((empty.tellAll told).ToldOf "subrelation") relation n above ∧
        (empty.tellAll told).TypedAt position above type ∧
        ∀ m other otherType,
          Graph.Steps ((empty.tellAll told).ToldOf "subrelation") relation m other →
          (empty.tellAll told).TypedAt position other otherType → n ≤ m := by
  have hstops := stops_iff_searchType (faithful_tellAll told) relation position
  have hnearest := ((hstops _).mpr rfl).nearest
  rw [leads_superrelationsOf (complete_tellAll told)] at hnearest
  simp only [← informativeType?_eq_some_iff]
  refine ⟨hstops, hnearest.exists_iff, ?_⟩
  intro type htype
  rw [htype] at hnearest
  exact hnearest

/-- relations in a cycle, one of them of no more than entities, and two ways out of it -/
def cyclicRelations : List Term :=
  [.app "subrelation" [.atom "a", .atom "b"], .app "subrelation" [.atom "b", .atom "a"],
    .app "domain" [.atom "b", .atom "1", .atom "Entity"],
    .app "subrelation" [.atom "b", .atom "c"], .app "subrelation" [.atom "c", .atom "d"],
    .app "domain" [.atom "d", .atom "1", .atom "Human"],
    .app "domainSubclass" [.atom "c", .atom "1", .atom "Animal"]]

/-- the type of the nearer relation is found, two statements away -/
theorem searchType_nearest_cyclicRelations :
    (empty.tellAll cyclicRelations).searchType "a" 1 = some "Animal+" ∧
    ∃ n above, Graph.Steps ((empty.tellAll cyclicRelations).ToldOf "subrelation") "a" n above ∧
      (empty.tellAll cyclicRelations).TypedAt 1 above "Animal+" ∧
      ∀ m other otherType,
        Graph.Steps ((empty.tellAll cyclicRelations).ToldOf "subrelation") "a" m other →
        (empty.tellAll cyclicRelations).TypedAt 1 other otherType → n ≤ m := by
  have hfound : (empty.tellAll cyclicRelations).searchType "a" 1 = some "Animal+" := by cbv
  obtain ⟨-, -, hnearest⟩ := searchType_nearest cyclicRelations "a" 1
  exact ⟨hfound, hnearest _ hfound⟩

end OntologyPrep.KnowledgeBase
