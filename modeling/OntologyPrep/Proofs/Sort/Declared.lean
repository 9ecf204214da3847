import OntologyPrep.Proofs.Knowledge.Scan
import OntologyPrep.Proofs.Sort.Remembered

/-!
# Which statements decide the type of an argument

The type of an argument is searched for in the statements that declare a type or put a relation under
another one.  The search has room for all relations, since every one but the first is named by a told
statement; so a term that is no such statement does not change what the search finds
(`KnowledgeBase.Faithful.searchType_tell`).
-/

namespace OntologyPrep

/-- the relations whose statements say what arguments must be -/
def declaringRelations : List String :=
  ["domain", "domainSubclass", "range", "rangeSubclass", "subrelation"]

/-- the term is a statement that says what arguments must be, or from where a relation has that -/
def Term.isDeclaration (t : Term) : Bool :=
  t.isStatement && t.head?.any fun h => declaringRelations.contains h

namespace KnowledgeBase

variable {kb : KnowledgeBase} {t : Term}

/-- a statement that has not the first atom asked for does not change the answer -/
theorem InStep.having_tell (hkb : kb.InStep) {position : Nat} {name : String}
    (h : t.isStatement = true → t.atomAt? position ≠ some name) (rest : List (Nat × String)) :
    (kb.tell t).having ((position, name) :: rest) = kb.having ((position, name) :: rest) := by
  rw [having, having, hkb.statements_tell, if_neg fun hnew => h hnew.2.1 hnew.2.2]

/-- a term that is no declaration does not change what is found at a declaring relation -/
theorem InStep.having_tell_declaring (hkb : kb.InStep) (ht : t.isDeclaration = false) {kind : String}
    (hkind : kind ∈ declaringRelations) (rest : List (Nat × String)) :
    (kb.tell t).having ((0, kind) :: rest) = kb.having ((0, kind) :: rest) := by
  refine hkb.having_tell (fun hstatement hat => ?_) rest
  have hhead : t.head? = some kind := by
    rw [Term.head?, Term.first?, List.head?_eq_getElem?]
    exact hat
  simp [Term.isDeclaration, hstatement, hhead, hkind] at ht

theorem InStep.declaredType?_tell (hkb : kb.InStep) (ht : t.isDeclaration = false) {kind : String}
    (hkind : kind ∈ declaringRelations) (relation : String) (position : Nat) :
    (kb.tell t).declaredType? kind relation position = kb.declaredType? kind relation position := by
  rw [declaredType?, declaredType?, hkb.having_tell_declaring ht hkind,
    hkb.having_tell_declaring ht hkind]

theorem InStep.argType?_tell (hkb : kb.InStep) (ht : t.isDeclaration = false) (relation : String)
    (position : Nat) :
    (kb.tell t).argType? relation position = kb.argType? relation position := by
  have hplain : (if position = 0 then "range" else "domain") ∈ declaringRelations := by
    split <;> simp [declaringRelations]
  have hsubclass : (if position = 0 then "rangeSubclass" else "domainSubclass") ∈
      declaringRelations := by
    split <;> simp [declaringRelations]
  rw [argType?, argType?, hkb.declaredType?_tell ht hplain, hkb.declaredType?_tell ht hsubclass]

theorem InStep.superrelationsOf_tell (hkb : kb.InStep) (ht : t.isDeclaration = false) :
    (kb.tell t).superrelationsOf = kb.superrelationsOf := by
  funext relation
  rw [superrelationsOf, superrelationsOf,
    hkb.having_tell_declaring ht (by simp [declaringRelations])]

/-- there is room for all relations above a relation -/
theorem Faithful.within_superrelationsOf (h : kb.Faithful) (relation : String) :
    Graph.Within kb.superrelationsOf (kb.namesAbove relation) (kb.size + 1) relation where
  stays x _ y hy := by
    obtain ⟨t, ht, hat⟩ := List.mem_filterMap.mp hy
    have htold : kb.Told t := mem_of_mem_having h ht
    exact List.mem_cons_of_mem _ (List.mem_filterMap.mpr ⟨t, Array.mem_toList_iff.mpr htold.1, hat⟩)
  starts := List.mem_cons_self
  room := Nat.succ_le_succ (List.length_filterMap_le _ _)

theorem Faithful.relationsFrom_tell (h : kb.Faithful) (ht : t.isDeclaration = false) (relation : String) :
    (kb.tell t).relationsFrom relation = kb.relationsFrom relation := by
  rw [relationsFrom, relationsFrom, h.superrelationsOf_tell ht]
  cases hknows : kb.knows t with
  | true => rw [tell_of_knows hknows]
  | false => rw [size_tell_of_new hknows, (h.within_superrelationsOf relation).reach_add]

/-- a term that is no declaration does not change the type of any argument -/
theorem Faithful.searchType_tell (h : kb.Faithful) (ht : t.isDeclaration = false) :
    (kb.tell t).searchType = kb.searchType := by
  funext relation position
  rw [searchType, searchType, h.relationsFrom_tell ht]
  simp only [h.argType?_tell ht]

end KnowledgeBase

end OntologyPrep
