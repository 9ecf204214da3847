import OntologyPrep.Proofs.Knowledge.Scan

/-!
# The class hierarchy as reachability

The search for superclasses has room for all classes, since every class but the first is named by a
told statement.  So it finds exactly the other classes that chains of told statements lead to
(`KnowledgeBase.mem_superclasses_iff`), with or without cycles, and a term that says nothing about
subclasses does not change what it finds (`KnowledgeBase.superclasses_tell`).
-/

namespace OntologyPrep.KnowledgeBase

variable {kb : KnowledgeBase}

theorem mem_parentsOf_iff (hf : kb.Faithful) (hc : kb.Complete) {sub sup : String} :
    sup ∈ kb.parentsOf sub ↔ kb.ToldOf "subclass" sub sup := by
  rw [parentsOf, Std.TreeSet.mem_toList]
  exact ⟨hf.parents, hc.parents⟩

/-- there is room for all classes -/
theorem Faithful.within (h : kb.Faithful) (cls : String) :
    Graph.Within kb.parentsOf (kb.namesAbove cls) (kb.size + 1) cls where
  stays x _ y hy := by
    obtain ⟨t, ht, -, -, hy⟩ := h.parents (Std.TreeSet.mem_toList.mp hy)
    exact List.mem_cons_of_mem _ (List.mem_filterMap.mpr ⟨t, Array.mem_toList_iff.mpr ht.1, hy⟩)
  starts := List.mem_cons_self
  room := Nat.succ_le_succ (List.length_filterMap_le _ _)

theorem reaches_iff {sub sup : String} :
    kb.Reaches sub sup ↔ sub = sup ∨ Relation.TransGen (kb.ToldOf "subclass") sub sup := by
  constructor
  · intro h
    induction h with
    | refl => exact .inl rfl
    | step _ hs ih =>
      rcases ih with rfl | ih
      · exact .inr (.single hs)
      · exact .inr (.tail ih hs)
  · rintro (rfl | h)
    · exact .refl sub
    · induction h with
      | single hs => exact .step (.refl sub) hs
      | tail _ hs ih => exact .step ih hs

theorem mem_above_iff (hf : kb.Faithful) (hc : kb.Complete) {cls c : String} :
    c ∈ kb.above cls ↔ c ≠ cls ∧ kb.Reaches cls c := by
  constructor
  · exact fun h => ⟨((hf.within cls).mem_drop_reach.mp h).1, hf.reaches_of_mem_above h⟩
  · rintro ⟨hne, h⟩
    refine (hf.within cls).mem_drop_reach.mpr ⟨hne, ?_⟩
    clear hne
    induction h with
    | refl => exact (hf.within cls).start_mem_reach
    | step _ hs ih => exact (hf.within cls).reach_closed _ ih _ ((mem_parentsOf_iff hf hc).mpr hs)

/-- the superclasses of a class are the other classes that told statements lead to -/
theorem mem_superclasses_iff (hf : kb.Faithful) (hc : kb.Complete) {cls c : String} :
    c ∈ kb.superclasses cls ↔ c ≠ cls ∧ Relation.TransGen (kb.ToldOf "subclass") cls c := by
  rw [superclasses, Std.TreeSet.mem_toList, Std.TreeSet.mem_ofList, List.contains_iff_mem,
    mem_above_iff hf hc, reaches_iff]
  constructor
  · rintro ⟨hne, rfl | h⟩
    · exact absurd rfl hne
    · exact ⟨hne, h⟩
  · exact fun h => ⟨h.1, .inr h.2⟩

/-- superclasses are listed in order, each once -/
theorem pairwise_superclasses (cls : String) :
    (kb.superclasses cls).Pairwise fun a b => compare a b = .lt := Std.TreeSet.ordered_toList

theorem isSubclass_eq {sub sup : String} :
    kb.isSubclass sub sup = (decide (sub ≠ sup) && (kb.superclasses sub).contains sup) := by
  rw [isSubclass, superclasses]
  congr 1
  rw [Bool.eq_iff_iff, List.contains_iff_mem, List.contains_iff_mem, Std.TreeSet.mem_toList,
    Std.TreeSet.mem_ofList, List.contains_iff_mem]

theorem isSubclass_iff (hf : kb.Faithful) (hc : kb.Complete) {sub sup : String} :
    kb.isSubclass sub sup = true ↔ sub ≠ sup ∧ Relation.TransGen (kb.ToldOf "subclass") sub sup := by
  rw [isSubclass_eq, Bool.and_eq_true, List.contains_iff_mem, mem_superclasses_iff hf hc,
    decide_eq_true_iff]
  exact ⟨fun h => ⟨h.1, h.2.2⟩, fun h => ⟨h.1, h.1.symm, h.2⟩⟩

theorem isInstance_iff (hf : kb.Faithful) (hc : kb.Complete) {item cls : String} :
    kb.isInstance item cls = true ↔ ∃ c, kb.ToldOf "instance" item c ∧
      (c = cls ∨ Relation.TransGen (kb.ToldOf "subclass") c cls) := by
  rw [isInstance, List.any_eq_true]
  refine exists_congr fun c => ?_
  rw [classesOf, Std.TreeSet.mem_toList, Bool.or_eq_true, decide_eq_true_iff, isSubclass_iff hf hc]
  refine and_congr ⟨hf.classes, hc.classes⟩ ⟨.imp_right And.right, fun h => ?_⟩
  by_cases he : c = cls
  · exact .inl he
  · exact h.imp_right fun h => ⟨he, h⟩

/-! ## one more term -/

theorem parents_tell {t : Term} (ht : t.isSubclassStatement = false) :
    (kb.tell t).parents = kb.parents := by
  rcases kb.tell_tables t with ⟨hp, -⟩ | ⟨hs, hp, -⟩
  · exact hp
  · rcases (kb.record_tables t).2.2.1 with he | ⟨sub, sup, h0, h1, h2, -⟩
    · rw [hp, he]
    · simp [Term.isSubclassStatement, hs, h0, h1, h2] at ht

/-- a term that puts no class under another one does not change the superclasses of any class -/
theorem superclasses_tell (h : kb.Faithful) {t : Term} (ht : t.isSubclassStatement = false)
    (cls : String) : (kb.tell t).superclasses cls = kb.superclasses cls := by
  have hparents : (kb.tell t).parentsOf = kb.parentsOf := by
    funext c
    rw [parentsOf, parents_tell ht, parentsOf]
  cases hknows : kb.knows t with
  | true => rw [tell_of_knows hknows]
  | false =>
    -- there is room for one name more, which nothing needs
    rw [superclasses, superclasses, above, above, hparents, size_tell_of_new hknows,
      (h.within cls).reach_add]

end OntologyPrep.KnowledgeBase
