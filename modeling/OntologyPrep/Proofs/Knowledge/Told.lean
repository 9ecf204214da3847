import Mathlib.Data.List.Permutation
import OntologyPrep.Knowledge.Query
import OntologyPrep.Proofs.Graph.Breadth
import OntologyPrep.Proofs.Term.Order
import OntologyPrep.Proofs.Term.Variables

/-!
# What the tables of a knowledge base come from

`KnowledgeBase.InStep` says that the set of known terms is that of the told ones, and that every place in
the index is the place of one of them.  Telling keeps it, and what it does to the statements that are
found is `KnowledgeBase.InStep.statements_tell`.

`KnowledgeBase.Told t` says that the statement `t` has been told.  `KnowledgeBase.Faithful` says that
the tables hold nothing else:

* `KnowledgeBase.Faithful.tell`, `KnowledgeBase.faithful_tellAll`   telling keeps it;
* `KnowledgeBase.Faithful.reaches_of_isSubclass`   a class below another one is so by a chain of told
                                                   statements;
* `KnowledgeBase.Faithful.ask`                     an answer is a told statement, or says of a told
                                                   instance of a class that it is one of a class above.
-/

namespace OntologyPrep

/-! ## the index -/

namespace Index

theorem find_enterFrom_of_lt {p q : Nat} (h : q < p) (ix : Index) (place : Nat) (items : List Term)
    (a : String) : (ix.enterFrom p place items).find q a = ix.find q a := by
  induction items generalizing ix p with
  | nil => rfl
  | cons x items ih =>
    cases x with
    | atom b => rw [enterFrom, ih (by omega), find_enter, if_neg fun he => by omega]
    | list ys => rw [enterFrom, ih (by omega)]

/-- a statement is entered where it has an atom -/
theorem find_enterFrom (ix : Index) (place : Nat) (items : List Term) (p k : Nat) (a : String) :
    (ix.enterFrom p place items).find (p + k) a =
      if items[k]?.bind Term.name? = some a then (ix.find (p + k) a).push place
      else ix.find (p + k) a := by
  induction items generalizing ix p k with
  | nil => simp [enterFrom]
  | cons x items ih =>
    cases k with
    | zero =>
      cases x with
      | atom b => simp [enterFrom, find_enterFrom_of_lt p.lt_succ_self, find_enter]
      | list ys => simp [enterFrom, find_enterFrom_of_lt p.lt_succ_self]
    | succ k =>
      have hk : p + (k + 1) = p + 1 + k := by omega
      cases x with
      | atom b =>
        have hne : ¬ (p = p + 1 + k ∧ b = a) := fun he => by omega
        rw [enterFrom, hk, ih, find_enter, if_neg hne, List.getElem?_cons_succ]
      | list ys => rw [enterFrom, hk, ih, List.getElem?_cons_succ]

theorem find_insert (ix : Index) (place : Nat) (t : Term) (q : Nat) (a : String) :
    (ix.insert place t).find q a =
      if t.atomAt? q = some a then (ix.find q a).push place else ix.find q a := by
  have h := ix.find_enterFrom place t.items 0 q a
  rw [Nat.zero_add] at h
  exact h

end Index

/-! ## tables of values -/

theorem mem_addValue {table : Std.TreeMap String (Std.TreeSet String)} {key value k v : String} :
    v ∈ (addValue table key value).getD k ∅ ↔ v ∈ table.getD k ∅ ∨ k = key ∧ v = value := by
  unfold addValue
  rw [Std.TreeMap.getD_insert]
  by_cases h : key = k
  · subst h
    simp only [Std.compare_self, if_true, Std.TreeSet.mem_insert, Std.LawfulEqCmp.compare_eq_iff_eq]
    constructor
    · rintro (h | h)
      · exact .inr ⟨trivial, h.symm⟩
      · exact .inl h
    · rintro (h | ⟨_, rfl⟩)
      · exact .inr h
      · exact .inl rfl
  · rw [if_neg (by simpa using h)]
    constructor
    · exact .inl
    · rintro (hv | ⟨rfl, _⟩)
      · exact hv
      · exact absurd rfl h

namespace KnowledgeBase

/-! ## the set and the index -/

/-- the set and the index go with the list of the told terms -/
structure InStep (kb : KnowledgeBase) : Prop where
  known : ∀ t, kb.knows t = true ↔ t ∈ kb.told
  held : ∀ {position : Nat} {name : String} {place : Nat},
    place ∈ kb.index.find position name → place < kb.size

theorem inStep_empty : empty.InStep where
  known t := by simp [knows, empty]
  held h := by simp [empty, Index.find_empty] at h

variable {kb : KnowledgeBase} {t : Term}

/-- what recording a statement does to each of the tables -/
theorem record_tables (kb : KnowledgeBase) (t : Term) :
    (kb.record t).told = kb.told ∧ (kb.record t).index = kb.index.insert kb.size t ∧
      ((kb.record t).parents = kb.parents ∨ ∃ sub sup, t.head? = some "subclass" ∧
        t.atomAt? 1 = some sub ∧ t.atomAt? 2 = some sup ∧
        (kb.record t).parents = addValue kb.parents sub sup) ∧
      ((kb.record t).classes = kb.classes ∨ ∃ item cls, t.head? = some "instance" ∧
        t.atomAt? 1 = some item ∧ t.atomAt? 2 = some cls ∧
        (kb.record t).classes = addValue kb.classes item cls) := by
  unfold record
  simp only
  split
  · next sub sup h0 h1 h2 => exact ⟨rfl, rfl, .inr ⟨sub, sup, h0, h1, h2, rfl⟩, .inl rfl⟩
  · next item cls h0 h1 h2 => exact ⟨rfl, rfl, .inl rfl, .inr ⟨item, cls, h0, h1, h2, rfl⟩⟩
  · split <;> exact ⟨rfl, rfl, .inl rfl, .inl rfl⟩
  · exact ⟨rfl, rfl, .inl rfl, .inl rfl⟩

theorem tell_of_knows (h : kb.knows t = true) : kb.tell t = kb := by
  rw [tell, h]

/-- telling a new term records it, if it is a statement, and puts it behind the others -/
theorem tell_of_new (h : kb.knows t = false) :
    kb.tell t = { if t.isStatement then kb.record t else kb with
      told := kb.told.push t, known := kb.known.insert t () } := by
  rw [tell, h]

theorem size_tell_of_new (h : kb.knows t = false) : (kb.tell t).size = kb.size + 1 := by
  rw [size, tell_of_new h, Array.size_push, size]

theorem knows_tell (kb : KnowledgeBase) (t : Term) {u : Term} :
    (kb.tell t).knows u = true ↔ kb.knows u = true ∨ u = t := by
  cases hknows : kb.knows t with
  | true =>
    rw [tell_of_knows hknows]
    exact ⟨.inl, fun h => h.elim id fun he => he ▸ hknows⟩
  | false =>
    rw [tell_of_new hknows, knows, knows, Std.TreeMap.contains_insert, Bool.or_eq_true, beq_iff_eq,
      Std.LawfulEqCmp.compare_eq_iff_eq, or_comm, eq_comm (a := t)]

theorem InStep.told_tell (h : kb.InStep) (t : Term) {u : Term} :
    u ∈ (kb.tell t).told ↔ u ∈ kb.told ∨ u = t := by
  cases hknows : kb.knows t with
  | true =>
    rw [tell_of_knows hknows]
    exact ⟨.inl, fun hu => hu.elim id fun he => he ▸ (h.known t).mp hknows⟩
  | false => rw [tell_of_new hknows, Array.mem_push]

/-- the index after a term has been told: a new statement is entered -/
theorem index_tell (kb : KnowledgeBase) (t : Term) : (kb.tell t).index =
    if kb.knows t = false ∧ t.isStatement = true then kb.index.insert kb.size t else kb.index := by
  cases hknows : kb.knows t with
  | true => rw [tell_of_knows hknows, if_neg (by simp)]
  | false =>
    rw [tell_of_new hknows]
    cases hs : t.isStatement with
    | true => exact (kb.record_tables t).2.1
    | false => rfl

theorem InStep.tell (h : kb.InStep) (t : Term) : (kb.tell t).InStep where
  known u := by rw [knows_tell, h.known, h.told_tell]
  held {position name place} hplace := by
    have hle : kb.size ≤ (kb.tell t).size := by
      cases hknows : kb.knows t with
      | true => exact Nat.le_of_eq (by rw [tell_of_knows hknows])
      | false => exact Nat.le_of_lt (by rw [size_tell_of_new hknows]; exact Nat.lt_succ_self _)
    rw [index_tell] at hplace
    split at hplace
    · next hnew =>
      rw [Index.find_insert] at hplace
      split at hplace
      · rcases Array.mem_push.mp hplace with hold | rfl
        · exact Nat.lt_of_lt_of_le (h.held hold) hle
        · rw [size_tell_of_new hnew.1]
          exact Nat.lt_succ_self _
      · exact Nat.lt_of_lt_of_le (h.held hplace) hle
    · exact Nat.lt_of_lt_of_le (h.held hplace) hle

theorem InStep.tellAll (h : kb.InStep) (ts : List Term) : (kb.tellAll ts).InStep := by
  induction ts generalizing kb with
  | nil => exact h
  | cons t ts ih => exact ih (h.tell t)

/-- a place that is held stays that of its term when another term is put behind the others -/
theorem InStep.filterMap_push (h : kb.InStep) {position : Nat} {name : String} :
    ((kb.index.find position name).toList.filterMap fun place => (kb.told.push t)[place]?) =
      kb.statements position name := by
  refine List.filterMap_congr fun place hplace => ?_
  have hlt : place < kb.told.size := h.held (Array.mem_toList_iff.mp hplace)
  rw [Array.getElem?_push, if_neg (Nat.ne_of_lt hlt)]

/-- what is found at a position after a term has been told: the term itself is found behind the others if
it is a new statement with the atom -/
theorem InStep.statements_tell (h : kb.InStep) (t : Term) (position : Nat) (name : String) :
    (kb.tell t).statements position name =
      if kb.knows t = false ∧ t.isStatement = true ∧ t.atomAt? position = some name then
        kb.statements position name ++ [t]
      else kb.statements position name := by
  cases hknows : kb.knows t with
  | true => rw [tell_of_knows hknows, if_neg (by simp)]
  | false =>
    have htold : (kb.tell t).told = kb.told.push t := by rw [tell_of_new hknows]
    rw [statements, index_tell, htold, hknows]
    cases hs : t.isStatement with
    | false =>
      rw [if_neg (by simp), if_neg (by simp)]
      exact h.filterMap_push
    | true =>
      rw [if_pos ⟨rfl, rfl⟩, Index.find_insert]
      by_cases hat : t.atomAt? position = some name
      · have hself : (kb.told.push t)[kb.size]? = some t := Array.getElem?_push_size
        rw [if_pos hat, if_pos ⟨rfl, rfl, hat⟩, Array.toList_push, List.filterMap_append,
          h.filterMap_push, List.filterMap_cons, hself, List.filterMap_nil]
      · rw [if_neg hat, if_neg fun hc => hat hc.2.2]
        exact h.filterMap_push

/-! ## what has been told -/

/-- the statement has been told -/
def Told (kb : KnowledgeBase) (t : Term) : Prop := t ∈ kb.told ∧ t.isStatement = true

/-- a told statement puts its second argument over its first one -/
def ToldOf (kb : KnowledgeBase) (relation item value : String) : Prop :=
  ∃ t, kb.Told t ∧ t.head? = some relation ∧ t.atomAt? 1 = some item ∧ t.atomAt? 2 = some value

/-- the tables hold nothing but what told statements say -/
structure Faithful (kb : KnowledgeBase) : Prop extends InStep kb where
  find : ∀ {position : Nat} {name : String} {t : Term},
    t ∈ kb.statements position name → kb.Told t
  parents : ∀ {sub sup : String}, sup ∈ kb.parents.getD sub ∅ → kb.ToldOf "subclass" sub sup
  classes : ∀ {item cls : String}, cls ∈ kb.classes.getD item ∅ → kb.ToldOf "instance" item cls

/-! ## telling -/

theorem faithful_empty : empty.Faithful where
  toInStep := inStep_empty
  find h := by simp [statements, empty, Index.find_empty] at h
  parents h := by simp [empty] at h
  classes h := by simp [empty] at h

theorem ToldOf.mono {kb kb' : KnowledgeBase} (hle : ∀ t, kb.Told t → kb'.Told t)
    {relation item value : String} (h : kb.ToldOf relation item value) :
    kb'.ToldOf relation item value := by
  obtain ⟨t, ht, hrest⟩ := h
  exact ⟨t, hle t ht, hrest⟩

/-- telling changes a table only for a statement, and then as recording does -/
theorem tell_tables (kb : KnowledgeBase) (t : Term) :
    ((kb.tell t).parents = kb.parents ∧ (kb.tell t).classes = kb.classes) ∨
      t.isStatement = true ∧ (kb.tell t).parents = (kb.record t).parents ∧
        (kb.tell t).classes = (kb.record t).classes := by
  unfold KnowledgeBase.tell
  split
  · exact .inl ⟨rfl, rfl⟩
  · split
    · next hs => exact .inr ⟨hs, rfl, rfl⟩
    · exact .inl ⟨rfl, rfl⟩

/-- one more statement keeps the tables faithful -/
theorem Faithful.tell {kb : KnowledgeBase} (h : kb.Faithful) (t : Term) : (kb.tell t).Faithful := by
  have hle : ∀ u, kb.Told u → (kb.tell t).Told u := fun u hu =>
    ⟨(h.told_tell t).mpr (.inl hu.1), hu.2⟩
  have hself : t.isStatement = true → (kb.tell t).Told t := fun hs =>
    ⟨(h.told_tell t).mpr (.inr rfl), hs⟩
  refine ⟨h.toInStep.tell t, ?find, ?parents, ?classes⟩
  case find =>
    intro position name u hu
    rw [h.statements_tell] at hu
    split at hu
    · next hnew =>
      rcases List.mem_append.mp hu with hu | hu
      · exact hle u (h.find hu)
      · rw [List.mem_singleton.mp hu]
        exact hself hnew.2.1
    · exact hle u (h.find hu)
  case parents =>
    intro sub sup hu
    rcases kb.tell_tables t with ⟨hp, -⟩ | ⟨hs, hp, -⟩
    · exact (h.parents (hp ▸ hu)).mono hle
    · rw [hp] at hu
      rcases (kb.record_tables t).2.2.1 with he | ⟨sub', sup', h0, h1, h2, he⟩ <;> rw [he] at hu
      · exact (h.parents hu).mono hle
      · rcases mem_addValue.mp hu with hu | ⟨rfl, rfl⟩
        · exact (h.parents hu).mono hle
        · exact ⟨t, hself hs, h0, h1, h2⟩
  case classes =>
    intro item cls hu
    rcases kb.tell_tables t with ⟨-, hc⟩ | ⟨hs, -, hc⟩
    · exact (h.classes (hc ▸ hu)).mono hle
    · rw [hc] at hu
      rcases (kb.record_tables t).2.2.2 with he | ⟨item', cls', h0, h1, h2, he⟩ <;> rw [he] at hu
      · exact (h.classes hu).mono hle
      · rcases mem_addValue.mp hu with hu | ⟨rfl, rfl⟩
        · exact (h.classes hu).mono hle
        · exact ⟨t, hself hs, h0, h1, h2⟩

theorem Faithful.tellAll {kb : KnowledgeBase} (h : kb.Faithful) (ts : List Term) :
    (kb.tellAll ts).Faithful := by
  induction ts generalizing kb with
  | nil => exact h
  | cons t ts ih => exact ih (h.tell t)

/-- a knowledge base that has been built by telling is faithful -/
theorem faithful_tellAll (ts : List Term) : (empty.tellAll ts).Faithful :=
  faithful_empty.tellAll ts

theorem InStep.mem_told_tellAll {kb : KnowledgeBase} (h : kb.InStep) {ts : List Term} {t : Term} :
    t ∈ (kb.tellAll ts).told ↔ t ∈ kb.told ∨ t ∈ ts := by
  induction ts generalizing kb with
  | nil => simp [KnowledgeBase.tellAll]
  | cons u ts ih =>
    show t ∈ ((kb.tell u).tellAll ts).told ↔ _
    rw [ih (h.tell u), h.told_tell, List.mem_cons, or_assoc]

/-- what has been told from the start is what the calls told -/
theorem mem_told_tellAll {ts : List Term} {t : Term} : t ∈ (empty.tellAll ts).told ↔ t ∈ ts := by
  rw [inStep_empty.mem_told_tellAll]
  simp [empty]

theorem mem_of_told_tellAll {ts : List Term} {t : Term} (h : (empty.tellAll ts).Told t) : t ∈ ts :=
  mem_told_tellAll.mp h.1

/-! ## the class hierarchy -/

/-- a chain of told statements leads from one class to another -/
inductive Reaches (kb : KnowledgeBase) : String → String → Prop where
  | refl (cls : String) : kb.Reaches cls cls
  | step {sub cls sup : String} : kb.Reaches sub cls → kb.ToldOf "subclass" cls sup →
    kb.Reaches sub sup

theorem Faithful.reaches_of_mem_above {kb : KnowledgeBase} (h : kb.Faithful) {sub sup : String}
    (hs : sup ∈ kb.above sub) : kb.Reaches sub sup := by
  refine Graph.of_mem_explore (P := kb.Reaches sub) (fun x hx y hy => ?_) (fun x hx => ?_)
    (List.mem_of_mem_drop hs)
  · exact .step hx (h.parents (Std.TreeSet.mem_toList.mp hy))
  · rw [List.mem_singleton.mp hx]
    exact .refl sub

theorem Faithful.reaches_of_isSubclass {kb : KnowledgeBase} (h : kb.Faithful) {sub sup : String}
    (hs : kb.isSubclass sub sup = true) : kb.Reaches sub sup := by
  rw [isSubclass, Bool.and_eq_true, List.contains_iff_mem] at hs
  exact h.reaches_of_mem_above hs.2

/-- an individual is an instance of a class by a told statement and a chain from the told class -/
theorem Faithful.exists_of_isInstance {kb : KnowledgeBase} (h : kb.Faithful) {item cls : String}
    (hi : kb.isInstance item cls = true) :
    ∃ c, kb.ToldOf "instance" item c ∧ kb.Reaches c cls := by
  rw [isInstance, List.any_eq_true] at hi
  obtain ⟨c, hc, hor⟩ := hi
  refine ⟨c, h.classes (Std.TreeSet.mem_toList.mp hc), ?_⟩
  rcases Bool.or_eq_true_iff.mp hor with he | hs
  · rw [of_decide_eq_true he]
    exact .refl cls
  · exact h.reaches_of_isSubclass hs

/-! ## answers -/

/-- an answer is a told statement with the relation of the question, or says of a told instance of a
class that it is one of the class asked for, which is above -/
theorem Faithful.ask {kb : KnowledgeBase} (h : kb.Faithful) {l : Literal} {t : Term}
    (ht : t ∈ kb.ask l) : l.accepts t = true ∧ (kb.Told t ∨ ∃ item c cls,
      t = .app "instance" [.atom item, .atom cls] ∧ Name.isVariable cls = false ∧
        kb.ToldOf "instance" item c ∧ kb.Reaches c cls) := by
  have hmatching : ∀ u ∈ kb.matching l, l.accepts u = true ∧ kb.Told u := by
    intro u hu
    obtain ⟨hu, ha⟩ := List.mem_filter.mp hu
    exact ⟨ha, h.find hu⟩
  unfold KnowledgeBase.ask at ht
  simp only at ht
  split at ht
  · next cls hcls =>
    rcases List.mem_append.mp ht with ht | ht
    · exact ⟨(hmatching t ht).1, .inl (hmatching t ht).2⟩
    · obtain ⟨ht, ha⟩ := List.mem_filter.mp (List.mem_filter.mp ht).1
      obtain ⟨item, hitem, rfl⟩ := List.mem_map.mp ht
      obtain ⟨c, hc, hreach⟩ := h.exists_of_isInstance (List.mem_filter.mp hitem).2
      refine ⟨ha, .inr ⟨item, c, cls, rfl, ?_, hc, hreach⟩⟩
      unfold classAsked? at hcls
      split at hcls
      · split at hcls
        · cases hcls
        · next hv => cases hcls; simpa using hv
      · cases hcls
  · exact ⟨(hmatching t ht).1, .inl (hmatching t ht).2⟩

theorem ToldOf.not_variable {kb : KnowledgeBase} {relation item value : String}
    (h : kb.ToldOf relation item value) :
    Name.isVariable item = false ∧ Name.isVariable value = false := by
  obtain ⟨t, ⟨_, hs⟩, _, h1, h2⟩ := h
  rw [Term.isStatement, Bool.and_eq_true, Bool.not_eq_true'] at hs
  have hatom : ∀ {p a}, t.atomAt? p = some a → Name.isVariable a = false := by
    intro p a ha
    rw [← Term.containsVariable_atom]
    exact Term.containsVariable_of_mem_items hs.1 (Term.mem_items_of_atomAt? ha)
  exact ⟨hatom h1, hatom h2⟩

/-- no answer has a variable -/
theorem Faithful.containsVariable_of_mem_ask {kb : KnowledgeBase} (h : kb.Faithful) {l : Literal}
    {t : Term} (ht : t ∈ kb.ask l) : t.containsVariable = false := by
  obtain ⟨_, hs | ⟨item, c, cls, rfl, hcls, hitem, _⟩⟩ := h.ask ht
  · have hs := hs.2
    rw [Term.isStatement, Bool.and_eq_true, Bool.not_eq_true'] at hs
    exact hs.1
  · rw [Term.app, Term.containsVariable_list]
    intro x hx
    simp only [List.mem_cons, List.not_mem_nil, or_false] at hx
    rcases hx with rfl | rfl | rfl
    · rw [Term.containsVariable_atom]
      decide
    · rw [Term.containsVariable_atom, hitem.not_variable.1]
    · rw [Term.containsVariable_atom, hcls]

end KnowledgeBase

end OntologyPrep
