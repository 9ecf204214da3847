import Mathlib.Tactic
import OntologyPrep.Knowledge.Signature
import OntologyPrep.Proofs.Knowledge.Hierarchy

/-!
# Signatures from declarations

A signature is told by the declarations of a relation, `KnowledgeBase.Declares`: where they mark it, and
how long they make it.

* `KnowledgeBase.signature?_eq_none_iff`   a relation without a signature;
* `KnowledgeBase.length_le_iff`            the length is the least one with room for everything;
* `KnowledgeBase.at?_eq_some_true_iff`     which positions hold relations;
* `KnowledgeBase.signature?_exact`         all of this for told statements, and that a length of 64 bits
                                           is exceeded by a declaration at the last position only;
* `KnowledgeBase.fits_iff`                 which signatures a vector holds.
-/

namespace OntologyPrep

namespace KnowledgeBase

variable {kb : KnowledgeBase} {relation cls : String} {position : Nat} {s : Signature}

/-! ## counts -/

/-- a number of 32 bits is what a count is read as -/
theorem lt_of_valence? {text : String} {n : Int} (h : Decimal.valence? text = some n) :
    n < 2147483648 := by
  have hrange := (Option.filter_eq_some_iff.mp h).2
  rw [Bool.and_eq_true, decide_eq_true_iff, decide_eq_true_iff] at hrange
  exact hrange.2

/-- the told counts are numbers of 32 bits -/
def SmallCounts (kb : KnowledgeBase) : Prop :=
  ∀ (relation : String) (n : Int), kb.valences[relation]? = some n → n < 2147483648

theorem SmallCounts.record (h : kb.SmallCounts) (t : Term) : (kb.record t).SmallCounts := by
  intro relation n hn
  unfold KnowledgeBase.record at hn
  simp only at hn
  split at hn
  · exact h _ _ hn
  · exact h _ _ hn
  · split at hn
    · next count hcount =>
      rw [Std.TreeMap.getElem?_insert] at hn
      split at hn
      · cases hn
        exact lt_of_valence? hcount
      · exact h _ _ hn
    · exact h _ _ hn
  · exact h _ _ hn

theorem SmallCounts.tell (h : kb.SmallCounts) (t : Term) : (kb.tell t).SmallCounts := by
  unfold KnowledgeBase.tell
  split
  · exact h
  · split
    · exact h.record t
    · exact h

theorem SmallCounts.tellAll (h : kb.SmallCounts) (ts : List Term) :
    (kb.tellAll ts).SmallCounts := by
  unfold KnowledgeBase.tellAll
  induction ts generalizing kb with
  | nil => exact h
  | cons t ts ih => exact ih (h.tell t)

theorem smallCounts_tellAll (told : List Term) : (empty.tellAll told).SmallCounts := by
  refine SmallCounts.tellAll ?_ told
  intro relation n hn
  simp [empty] at hn

theorem exists_of_listed? {table : List (String × Int)} {name : String} {n : Int}
    (h : listed? table name = some n) : ∃ row ∈ table, row.2 = n := by
  obtain ⟨row, hrow, hn⟩ := Option.map_eq_some_iff.mp h
  exact ⟨row, List.mem_of_find?_eq_some hrow, hn⟩

/-- so are all counts -/
theorem SmallCounts.valence_lt (h : kb.SmallCounts) (relation : String) :
    kb.valence relation < 2147483648 := by
  have hbuiltin : ∀ p ∈ builtinValences, p.2 < 2147483648 := by decide
  have hclasses : ∀ p ∈ arityClasses, p.2 < 2147483648 := by decide
  unfold valence
  split
  · next n hn => exact h relation n hn
  · split
    · next n hn =>
      obtain ⟨row, hrow, rfl⟩ := exists_of_listed? hn
      exact hbuiltin row hrow
    · cases hinherited : kb.inheritedValence? relation with
      | none => decide
      | some n =>
        obtain ⟨c, -, hc⟩ := List.exists_of_findSome?_eq_some hinherited
        obtain ⟨candidate, -, hn⟩ := List.exists_of_findSome?_eq_some hc
        obtain ⟨row, hrow, rfl⟩ := exists_of_listed? hn
        exact hclasses row hrow

/-! ## declarations -/

/-- a told statement declares the class of the relation's argument at the position -/
def Declares (kb : KnowledgeBase) (relation : String) (position : Nat) (cls : String) : Prop :=
  ∃ t, kb.Told t ∧ t.head? = some "domain" ∧ t.atomAt? 1 = some relation ∧
    declaration? t = some (position, cls)

/-- the class is that of relations, or told to be below it -/
def OfRelations (kb : KnowledgeBase) (cls : String) : Prop :=
  cls = relationClass ∨ Relation.TransGen (kb.ToldOf "subclass") cls relationClass

/-- the declarations that a signature is made from -/
def declarations (kb : KnowledgeBase) (relation : String) : List (Nat × String) :=
  (kb.having [(0, "domain"), (1, relation)]).filterMap declaration?

theorem mem_declarations_iff (hc : kb.Complete) :
    (position, cls) ∈ kb.declarations relation ↔ kb.Declares relation position cls := by
  rw [declarations, List.mem_filterMap]
  refine exists_congr fun t => ?_
  rw [hc.mem_having_iff, and_assoc, and_assoc]

theorem isRelationClass_iff (hf : kb.Faithful) (hc : kb.Complete) :
    kb.isRelationClass cls = true ↔ kb.OfRelations cls := by
  rw [isRelationClass, Bool.or_eq_true, decide_eq_true_iff, isSubclass_iff hf hc, OfRelations]
  constructor
  · exact Or.imp_right And.right
  · intro h
    by_cases heq : cls = relationClass
    · exact .inl heq
    · exact .inr ⟨heq, h.resolve_left heq⟩

/-! ## the signature -/

/-- a relation has no signature if nothing is declared of it and its count is unknown -/
theorem signature?_eq_none_iff (hc : kb.Complete) : kb.signature? relation = none ↔
    (∀ t, kb.Told t → t.head? = some "domain" → t.atomAt? 1 ≠ some relation) ∧
      kb.valence relation < 0 := by
  have hempty : (kb.having [(0, "domain"), (1, relation)]).isEmpty = true ↔
      ∀ t, kb.Told t → t.head? = some "domain" → t.atomAt? 1 ≠ some relation := by
    rw [List.isEmpty_iff, List.eq_nil_iff_forall_not_mem]
    refine forall_congr' fun t => ?_
    rw [hc.mem_having_iff]
    tauto
  rw [← hempty, signature?]
  simp only
  split
  · next h => simpa using h
  · next h => simpa using h

theorem signature?_eq_some (h : kb.signature? relation = some s) :
    s.length = ((kb.declarations relation).map Prod.fst).foldl max (kb.valence relation).toNat + 1 ∧
      s.marked = ((kb.declarations relation).filter fun d => kb.isRelationClass d.2).map Prod.fst := by
  rw [signature?] at h
  simp only at h
  split at h
  · cases h
  · cases h
    exact ⟨rfl, rfl⟩

theorem foldl_max_lt_iff {ps : List Nat} {n bound : Nat} :
    ps.foldl max n < bound ↔ n < bound ∧ ∀ p ∈ ps, p < bound := by
  induction ps generalizing n with
  | nil => simp
  | cons p ps ih =>
    rw [List.foldl_cons, ih, Nat.max_lt, List.forall_mem_cons, and_assoc]

/-- the signature is as long as it has to be for the count and for every declaration -/
theorem length_le_iff (hc : kb.Complete) (h : kb.signature? relation = some s) {bound : Nat} :
    s.length ≤ bound ↔ (kb.valence relation).toNat < bound ∧
      ∀ position cls, kb.Declares relation position cls → position < bound := by
  rw [(signature?_eq_some h).1, Nat.add_one_le_iff, foldl_max_lt_iff]
  refine and_congr_right fun _ => ?_
  rw [List.forall_mem_map]
  constructor
  · exact fun hall position cls hd => hall (position, cls) ((mem_declarations_iff hc).mpr hd)
  · exact fun hall d hd => hall d.1 d.2 ((mem_declarations_iff hc).mp hd)

/-- a declared relation has a signature -/
theorem signature?_of_declares (hc : kb.Complete) (h : kb.Declares relation position cls) :
    ∃ s, kb.signature? relation = some s := by
  obtain ⟨t, htold, hhead, hitem, -⟩ := h
  cases hs : kb.signature? relation with
  | none => exact absurd hitem (((signature?_eq_none_iff hc).mp hs).1 t htold hhead)
  | some s => exact ⟨s, rfl⟩

theorem Signature.getElem?_toList (s : Signature) (position : Nat) :
    s.toList[position]? = s.at? position := by
  rw [toList, List.getElem?_map, at?]
  split
  · next h => rw [List.getElem?_range h, Option.map_some]
  · next h =>
    rw [List.getElem?_eq_none (by simpa using h), Option.map_none]

/-- a position is marked by a declaration of a class of relations, wherever it is -/
theorem at?_eq_some_true_iff (hf : kb.Faithful) (hc : kb.Complete)
    (h : kb.signature? relation = some s) : s.at? position = some true ↔
      ∃ cls, kb.Declares relation position cls ∧ kb.OfRelations cls := by
  have hmarked : position ∈ s.marked ↔
      ∃ cls, kb.Declares relation position cls ∧ kb.OfRelations cls := by
    rw [(signature?_eq_some h).2, List.mem_map]
    constructor
    · intro hd
      obtain ⟨d, hd, rfl⟩ := hd
      obtain ⟨hd, hclass⟩ := List.mem_filter.mp hd
      exact ⟨d.2, (mem_declarations_iff hc).mp hd, (isRelationClass_iff hf hc).mp hclass⟩
    · intro hd
      obtain ⟨cls, hd, hclass⟩ := hd
      exact ⟨(position, cls), List.mem_filter.mpr
        ⟨(mem_declarations_iff hc).mpr hd, (isRelationClass_iff hf hc).mpr hclass⟩, rfl⟩
  rw [← hmarked, Signature.at?]
  constructor
  · intro hat
    split at hat
    · simpa using hat
    · cases hat
  · intro hmem
    obtain ⟨cls, hd, -⟩ := hmarked.mp hmem
    have hlt := ((length_le_iff hc h).mp (Nat.le_refl _)).2 position cls hd
    rw [if_pos hlt]
    simpa using hmem

/-- a declared position is a number of 64 bits -/
theorem Declares.lt (h : kb.Declares relation position cls) : position < UInt64.size := by
  obtain ⟨t, -, -, -, hd⟩ := h
  obtain ⟨a, -, hd⟩ := Option.bind_eq_some_iff.mp hd
  obtain ⟨p, hp, hd⟩ := Option.bind_eq_some_iff.mp hd
  obtain ⟨c, -, hd⟩ := Option.bind_eq_some_iff.mp hd
  cases hd
  exact of_decide_eq_true (Option.filter_eq_some_iff.mp hp).2

/-- counts are small, so that only a declaration makes a signature long -/
theorem length_le_iff_of_small (hc : kb.Complete) (hs : kb.SmallCounts)
    (h : kb.signature? relation = some s) {bound : Nat} (hbound : 2147483648 ≤ bound) :
    s.length ≤ bound ↔
      ∀ position cls, kb.Declares relation position cls → position < bound := by
  have hvalence := hs.valence_lt relation
  rw [length_le_iff hc h]
  exact and_iff_right (by omega)

/-- A relation has no signature exactly if no statement about its arguments has been told and its count is
unknown.  Else every declared position is in the signature, which marks the positions that have been
declared to hold relations and no others; and its length is a number of 64 bits exactly if no
declaration is at the last such number. -/
theorem signature?_exact (told : List Term) (relation : String) :
    ((empty.tellAll told).signature? relation = none ↔
      (∀ t, (empty.tellAll told).Told t → t.head? = some "domain" → t.atomAt? 1 ≠ some relation) ∧
        (empty.tellAll told).valence relation < 0) ∧
    ∀ s, (empty.tellAll told).signature? relation = some s →
      (∀ position cls, (empty.tellAll told).Declares relation position cls → position < s.length) ∧
      (∀ position, s.toList[position]? = some true ↔
        ∃ cls, (empty.tellAll told).Declares relation position cls ∧
          (empty.tellAll told).OfRelations cls) ∧
      (s.length < UInt64.size ↔
        ∀ cls, ¬ (empty.tellAll told).Declares relation (UInt64.size - 1) cls) := by
  have hf := faithful_tellAll told
  have hc := complete_tellAll told
  refine ⟨signature?_eq_none_iff hc, ?_⟩
  intro s h
  refine ⟨((length_le_iff hc h).mp (Nat.le_refl _)).2, ?_, ?_⟩
  · intro position
    rw [Signature.getElem?_toList]
    exact at?_eq_some_true_iff hf hc h
  · have hlength : s.length ≤ UInt64.size - 1 ↔ _ :=
      length_le_iff_of_small hc (smallCounts_tellAll told) h (by decide)
    rw [Nat.lt_iff_le_pred (by decide), hlength]
    constructor
    · exact fun hall cls hd => absurd (hall _ cls hd) (Nat.lt_irrefl _)
    · intro hlast position cls hd
      have hlt := hd.lt
      by_cases heq : position = UInt64.size - 1
      · rw [heq] at hd
        exact absurd hd (hlast cls)
      · omega

/-- one declaration, at the last number of 64 bits -/
def lastPosition : Term :=
  .app "domain" [.atom "r", .atom "18446744073709551615", .atom "Relation"]

/-- the position is marked, but the length is no number of 64 bits any more -/
theorem signature?_lastPosition : ∃ s, (empty.tellAll [lastPosition]).signature? "r" = some s ∧
    s.at? (UInt64.size - 1) = some true ∧ ¬ s.length < UInt64.size := by
  have hf := faithful_tellAll [lastPosition]
  have hc := complete_tellAll [lastPosition]
  have htold : (empty.tellAll [lastPosition]).Told lastPosition :=
    ⟨mem_told_tellAll.mpr List.mem_cons_self, by cbv⟩
  have hd : (empty.tellAll [lastPosition]).Declares "r" (UInt64.size - 1) "Relation" :=
    ⟨lastPosition, htold, rfl, rfl, by cbv⟩
  obtain ⟨s, h⟩ := signature?_of_declares hc hd
  refine ⟨s, h, (at?_eq_some_true_iff hf hc h).mpr ⟨"Relation", hd, .inl rfl⟩, ?_⟩
  have hlt := ((length_le_iff hc h).mp (Nat.le_refl _)).2 _ _ hd
  omega

/-! ## signatures that a vector holds -/

/-- a vector holds the signature unless a declaration is at a position too high for it -/
theorem fits_iff (hc : kb.Complete) (hs : kb.SmallCounts) (h : kb.signature? relation = some s) :
    s.fits = true ↔
      ∀ position cls, kb.Declares relation position cls → position < vectorBound - 1 := by
  rw [← length_le_iff_of_small hc hs h (by decide), Signature.fits, decide_eq_true_iff,
    Nat.lt_iff_le_pred (by decide)]

end KnowledgeBase

end OntologyPrep
