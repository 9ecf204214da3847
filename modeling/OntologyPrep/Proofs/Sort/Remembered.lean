import OntologyPrep.Proofs.Fresh.Drawn
import OntologyPrep.Proofs.Knowledge.Told
import OntologyPrep.Sort.Declared
import OntologyPrep.Sort.Shelf

/-!
# Where types come from

A type is found in a cache or declared by a told statement.  `TypeCache.Holds P` says that all types
in a cache are of a kind `P`; if all declared types are of that kind too, then so is every type found,
and the cache stays so (`KnowledgeBase.holds_typeOf`).

Behind a declared type stands an atom of a told statement (`KnowledgeBase.exists_of_argType?`).

`KnowledgeBase.typeIn` is the type that is found with a cache; finding types does not change the types
that are found (`KnowledgeBase.typeIn_typeOf`).
-/

namespace OntologyPrep

namespace TypeCache

variable {P : String → Prop} {c : TypeCache}

/-- every remembered type is of a kind -/
def Holds (P : String → Prop) (c : TypeCache) : Prop :=
  ∀ key type, c.get? key = some (some type) → P type

theorem holds_empty : empty.Holds P := by
  intro key type h
  simp [empty, get?] at h

theorem Holds.insert (h : c.Holds P) (key : String) {result : Option String}
    (hresult : ∀ type, result = some type → P type) : (c.insert key result).Holds P := by
  intro k type hk
  rw [get?_insert] at hk
  split at hk
  · exact hresult type (Option.some.inj hk)
  · exact h k type hk

theorem Holds.getOrAdd (h : c.Holds P) (key : String) {compute : Unit → Option String}
    (hcompute : ∀ type, compute () = some type → P type) :
    (∀ type, (getOrAdd key compute c).1 = some type → P type) ∧ (getOrAdd key compute c).2.Holds P := by
  unfold TypeCache.getOrAdd
  cases hkey : c.get? key with
  | some result => exact ⟨fun type htype => h key type (htype ▸ hkey), h⟩
  | none => exact ⟨hcompute, h.insert key hcompute⟩

/-- a key says its relation and its position -/
theorem argumentKey_inj {r r' : String} {p p' : Nat} (h : argumentKey r p = argumentKey r' p') :
    r = r' ∧ p = p' := by
  have hstem : ∀ r : String, Supply.IsStem ("findType:" ++ r ++ ":") := by
    intro r
    rw [Supply.IsStem, String.toList_append, List.reverse_append]
    rfl
  obtain ⟨hposition, hkey⟩ := Supply.append_toString_inj (hstem r) (hstem r') h
  exact ⟨(String.append_right_inj _).mp ((String.append_left_inj _).mp hkey), hposition⟩

end TypeCache

namespace KnowledgeBase

variable {kb : KnowledgeBase} {P : String → Prop}

/-- a type that is searched for is declared for some relation -/
theorem exists_of_searchType {relation type : String} {position : Nat}
    (h : kb.searchType relation position = some type) :
    ∃ r, kb.argType? r position = some type := by
  obtain ⟨r, _, hr⟩ := List.exists_of_findSome?_eq_some h
  exact ⟨r, (Option.filter_eq_some_iff.mp hr).1⟩

/-- the type of an argument is of the kind of all declared and remembered types -/
theorem holds_typeOf (hkb : ∀ relation position type, kb.argType? relation position = some type →
    P type) {cache : TypeCache} (hcache : cache.Holds P) (relation : String) (position : Nat) :
    (∀ type, (kb.typeOf relation position cache).1 = some type → P type) ∧
      (kb.typeOf relation position cache).2.Holds P := by
  refine hcache.getOrAdd _ fun type htype => ?_
  obtain ⟨r, hr⟩ := exists_of_searchType htype
  exact hkb r position type hr

theorem mem_of_mem_having {restrictions : List (Nat × String)} {t : Term} (hkb : kb.Faithful)
    (h : t ∈ kb.having restrictions) : kb.Told t := by
  match restrictions with
  | [] => cases h
  | (position, name) :: rest =>
    exact hkb.find (List.mem_filter.mp h).1

theorem exists_of_declaredType? (hkb : kb.Faithful) {kind relation type : String} {position : Nat}
    (h : kb.declaredType? kind relation position = some type) :
    ∃ t index, kb.Told t ∧ t.atomAt? index = some type := by
  unfold declaredType? at h
  split at h
  · obtain ⟨t, ht, hatom⟩ := List.exists_of_findSome?_eq_some h
    exact ⟨t, 2, mem_of_mem_having hkb ht, hatom⟩
  · obtain ⟨t, ht, hatom⟩ := List.exists_of_findSome?_eq_some h
    exact ⟨t, 3, mem_of_mem_having hkb ht, hatom⟩

/-- a declared type is an atom of a told statement, or such an atom with `+` behind it -/
theorem exists_of_argType? (hkb : kb.Faithful) {relation type : String} {position : Nat}
    (h : kb.argType? relation position = some type) : ∃ t index cls, kb.Told t ∧
      t.atomAt? index = some cls ∧ (type = cls ∨ type = cls ++ "+") := by
  unfold argType? at h
  simp only at h
  split at h
  · next cls hcls =>
    cases h
    obtain ⟨t, index, ht, hatom⟩ := exists_of_declaredType? hkb hcls
    exact ⟨t, index, type, ht, hatom, .inl rfl⟩
  · obtain ⟨cls, hcls, rfl⟩ := Option.map_eq_some_iff.mp h
    obtain ⟨t, index, ht, hatom⟩ := exists_of_declaredType? hkb hcls
    exact ⟨t, index, cls, ht, hatom, .inr rfl⟩

/-! ## what is found with a cache -/

/-- the type that is found for an argument with a cache -/
def typeIn (kb : KnowledgeBase) (cache : TypeCache) (relation : String) (position : Nat) :
    Option String := (kb.typeOf relation position cache).1

theorem typeIn_eq (cache : TypeCache) (relation : String) (position : Nat) :
    kb.typeIn cache relation position =
      (cache.get? (TypeCache.argumentKey relation position)).getD
        (kb.searchType relation position) := by
  unfold typeIn typeOf TypeCache.getOrAdd
  cases cache.get? (TypeCache.argumentKey relation position) <;> rfl

/-- what has been remembered is what would have been found -/
theorem typeIn_typeOf (cache : TypeCache) (relation : String) (position : Nat) :
    kb.typeIn (kb.typeOf relation position cache).2 = kb.typeIn cache := by
  funext r p
  rw [typeIn_eq, typeIn_eq]
  unfold typeOf TypeCache.getOrAdd
  cases hkey : cache.get? (TypeCache.argumentKey relation position) with
  | some result => rfl
  | none =>
    rw [TypeCache.get?_insert]
    split
    · next heq =>
      obtain ⟨rfl, rfl⟩ := TypeCache.argumentKey_inj heq
      rw [hkey]
      rfl
    · rfl

/-! ## the most specific classes -/

/-- the order of classes and how often they are listed do not matter -/
theorem mem_winnow {classes : List String} {c : String} : c ∈ kb.winnow classes ↔
    c ∈ classes ∧ ∀ other ∈ classes, kb.isSubclass other c = false := by
  rw [winnow, List.mem_filter, List.mem_eraseDups, Bool.not_eq_true', List.any_eq_false]
  simp only [List.mem_eraseDups, Bool.not_eq_true]

end KnowledgeBase

theorem subclassBase?_append (cls : String) : subclassBase? (cls ++ "+") = some cls := by
  simp [subclassBase?]

theorem eq_of_subclassBase? {type base : String} (h : subclassBase? type = some base) :
    type = base ++ "+" := by
  unfold subclassBase? at h
  split at h
  · next cs hcs =>
    cases h
    have hlist : type.toList = cs.reverse ++ ['+'] := by
      rw [← List.reverse_reverse type.toList, hcs, List.reverse_cons]
    rw [← String.ofList_toList (s := type), hlist, String.ofList_append]
  · cases h

/-! ## classes are no variables -/

/-- the class that a type stands for is no variable -/
def IsSort (type : String) : Prop := Name.isVariable ((subclassBase? type).getD type) = false

/-- a variable with more characters behind it is still a variable -/
theorem Name.isVariable_append {a : String} (h : isVariable a = true) (b : String) :
    isVariable (a ++ b) = true := by
  obtain ⟨c, d, cs, ha, hc⟩ : ∃ c d cs, a.toList = c :: d :: cs ∧ (c = '?' ∨ c = '@') := by
    rw [isVariable, isPlainVariable, isRowVariable] at h
    split at h
    · next d cs hcs => exact ⟨_, d, cs, hcs, .inl rfl⟩
    · split at h
      · next d cs hcs => exact ⟨_, d, cs, hcs, .inr rfl⟩
      · cases h
  have hab : (a ++ b).toList = c :: d :: (cs ++ b.toList) := by
    rw [String.toList_append, ha]
    rfl
  rcases hc with rfl | rfl
  · rw [isVariable, isPlainVariable, hab]
    rfl
  · refine isVariable_of_isRowVariable ?_
    rw [isRowVariable, hab]
    rfl

namespace KnowledgeBase

variable {kb : KnowledgeBase}

/-- the class that an argument is declared to be of is no variable, since told statements have none -/
theorem isSort_of_argType? (hkb : kb.Faithful) {relation type : String} {position : Nat}
    (h : kb.argType? relation position = some type) : IsSort type := by
  obtain ⟨t, index, cls, ht, hatom, hcls⟩ := exists_of_argType? hkb h
  have hconst : Name.isVariable cls = false := by
    have hstatement := ht.2
    rw [Term.isStatement, Bool.and_eq_true, Bool.not_eq_true'] at hstatement
    rw [← Term.containsVariable_atom]
    exact Term.containsVariable_of_mem_items hstatement.1 (Term.mem_items_of_atomAt? hatom)
  rw [IsSort]
  rcases hcls with rfl | rfl
  · cases hbase : subclassBase? type with
    | none => exact hconst
    | some base =>
      rw [eq_of_subclassBase? hbase] at hconst
      cases hvar : Name.isVariable base with
      | false => exact hvar
      | true => rw [Name.isVariable_append hvar] at hconst; cases hconst
  · rw [subclassBase?_append]
    exact hconst

/-- nor is the class that is found with a cache without such variables -/
theorem isSort_of_typeIn (hkb : kb.Faithful) {cache : TypeCache} (hcache : cache.Holds IsSort)
    {relation type : String} {position : Nat}
    (h : kb.typeIn cache relation position = some type) : IsSort type :=
  (holds_typeOf (fun _ _ _ h => isSort_of_argType? hkb h) hcache relation position).1 type h

end KnowledgeBase

end OntologyPrep
