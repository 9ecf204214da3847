import Mathlib.Data.Finset.Dedup
import Mathlib.Order.Preorder.Finite
import Mathlib.Tactic.Tauto
import OntologyPrep.Proofs.Knowledge.Hierarchy
import OntologyPrep.Proofs.Sort.Declared

/-!
# The most specific classes

Winnowing keeps the classes that no other class of the list is below (`KnowledgeBase.mem_winnow_iff`).
So a class that is not kept is above one that is, unless it comes only from cycles: two classes that are
below each other drop each other, although nothing more specific stays (`KnowledgeBase.not_covers_winnow`).

`KnowledgeBase.AcyclicBelow` says of a class of the list that no two classes of the list lie on such a
cycle at or below it.  Then a most specific class below it is kept, since told chains order the classes
(`KnowledgeBase.exists_mem_winnow`), and what is kept covers the classes above the acyclic ones and no
others (`KnowledgeBase.winnow_most_specific`).
-/

namespace OntologyPrep.KnowledgeBase

variable {kb : KnowledgeBase} {classes : List String} {cls : String}

/-! ## chains of told statements -/

theorem Reaches.trans {sub mid sup : String} (h : kb.Reaches sub mid) (h' : kb.Reaches mid sup) :
    kb.Reaches sub sup := by
  induction h' with
  | refl => exact h
  | step _ hs ih => exact .step ih hs

theorem isSubclass_iff_reaches (hf : kb.Faithful) (hc : kb.Complete) {sub sup : String} :
    kb.isSubclass sub sup = true ↔ sub ≠ sup ∧ kb.Reaches sub sup := by
  rw [isSubclass_iff hf hc, reaches_iff]
  exact and_congr_right fun hne => ⟨.inr, fun h => h.resolve_left hne⟩

/-- the classes ordered by chains of told statements, where a cycle is of classes that are alike -/
@[reducible] def reachesPreorder (kb : KnowledgeBase) : Preorder String where
  le := kb.Reaches
  lt a b := kb.Reaches a b ∧ ¬ kb.Reaches b a
  le_refl := .refl
  le_trans _ _ _ := Reaches.trans

/-! ## what is kept -/

/-- the kept classes are those that no other class of the list leads to -/
theorem mem_winnow_iff (hf : kb.Faithful) (hc : kb.Complete) : cls ∈ kb.winnow classes ↔
    cls ∈ classes ∧ ∀ other ∈ classes, kb.Reaches other cls → other = cls := by
  rw [mem_winnow]
  refine and_congr_right fun _ => forall₂_congr fun other _ => ?_
  rw [← Bool.not_eq_true, isSubclass_iff_reaches hf hc]
  tauto

/-- the kept classes stay in the order in which they first came -/
theorem winnow_sublist (kb : KnowledgeBase) (classes : List String) :
    (kb.winnow classes).Sublist classes.eraseDups := List.filter_sublist

theorem nodup_winnow (kb : KnowledgeBase) (classes : List String) : (kb.winnow classes).Nodup :=
  (Distinct.nodup_eraseDups classes).sublist (kb.winnow_sublist classes)

/-- no two classes of the list, at or below the class, are below each other -/
def AcyclicBelow (kb : KnowledgeBase) (classes : List String) (cls : String) : Prop :=
  ∀ a ∈ classes, ∀ b ∈ classes, kb.Reaches a cls → kb.Reaches a b → kb.Reaches b a → a = b

/-- a class with no cycle below has a most specific one below it, which is kept -/
theorem exists_mem_winnow (hf : kb.Faithful) (hc : kb.Complete) (hcls : cls ∈ classes)
    (h : kb.AcyclicBelow classes cls) : ∃ k ∈ kb.winnow classes, kb.Reaches k cls := by
  let _ := kb.reachesPreorder
  obtain ⟨k, hle, hmin⟩ := classes.toFinset.exists_le_minimal (List.mem_toFinset.mpr hcls)
  have hk : k ∈ classes := List.mem_toFinset.mp hmin.1
  refine ⟨k, (mem_winnow_iff hf hc).mpr ⟨hk, fun other hother hreach => ?_⟩, hle⟩
  -- a class below the most specific one is on a cycle with it
  exact h other hother k hk (hreach.trans hle) hreach (hmin.2 (List.mem_toFinset.mpr hother) hreach)

/-- nothing but the class itself is at or below a kept class -/
theorem acyclicBelow_of_mem_winnow (hf : kb.Faithful) (hc : kb.Complete)
    (h : cls ∈ kb.winnow classes) : kb.AcyclicBelow classes cls := by
  obtain ⟨-, hmost⟩ := (mem_winnow_iff hf hc).mp h
  intro a ha b hb hacls _ hba
  rw [hmost a ha hacls, hmost b hb (hba.trans hacls)]

/-- Winnowing keeps exactly the classes of the list that no other one leads to, in the order in which
they first came, each once; so no kept class leads to another one.  A class of the list is kept or above
a kept class exactly if some class of the list at or below it has no cycle below. -/
theorem winnow_most_specific (told : List Term) (classes : List String) :
    ((empty.tellAll told).winnow classes).Sublist classes.eraseDups ∧
    ((empty.tellAll told).winnow classes).Nodup ∧
    (∀ c, c ∈ (empty.tellAll told).winnow classes ↔
      c ∈ classes ∧ ∀ other ∈ classes, (empty.tellAll told).Reaches other c → other = c) ∧
    (∀ a ∈ (empty.tellAll told).winnow classes, ∀ b ∈ (empty.tellAll told).winnow classes,
      (empty.tellAll told).Reaches a b → a = b) ∧
    ∀ c ∈ classes, (∃ k ∈ (empty.tellAll told).winnow classes, (empty.tellAll told).Reaches k c) ↔
      ∃ d ∈ classes, (empty.tellAll told).Reaches d c ∧
        (empty.tellAll told).AcyclicBelow classes d := by
  have hf := faithful_tellAll told
  have hc := complete_tellAll told
  refine ⟨winnow_sublist _ classes, nodup_winnow _ classes, fun c => mem_winnow_iff hf hc,
    fun a ha b hb hab => ?_, fun c _ => ⟨?_, ?_⟩⟩
  · exact ((mem_winnow_iff hf hc).mp hb).2 a ((mem_winnow_iff hf hc).mp ha).1 hab
  · rintro ⟨k, hk, hkc⟩
    exact ⟨k, ((mem_winnow_iff hf hc).mp hk).1, hkc, acyclicBelow_of_mem_winnow hf hc hk⟩
  · rintro ⟨d, hd, hdc, hacyclic⟩
    obtain ⟨k, hk, hkd⟩ := exists_mem_winnow hf hc hd hacyclic
    exact ⟨k, hk, hkd.trans hdc⟩

/-- every class of the list is kept or above a kept class -/
def Covers (kb : KnowledgeBase) (classes : List String) : Prop :=
  ∀ c ∈ classes, ∃ k ∈ kb.winnow classes, kb.Reaches k c

/-- two classes that are below each other -/
def cycleTold : List Term :=
  [.app "subclass" [.atom "A", .atom "B"], .app "subclass" [.atom "B", .atom "A"]]

/-- of two classes that are below each other none is kept -/
theorem not_covers_winnow : ¬ (empty.tellAll cycleTold).Covers ["A", "B"] := by
  intro h
  have hnone : (empty.tellAll cycleTold).winnow ["A", "B"] = [] := by cbv
  rw [Covers, hnone] at h
  obtain ⟨k, hk, -⟩ := h "A" List.mem_cons_self
  cases hk

end OntologyPrep.KnowledgeBase
