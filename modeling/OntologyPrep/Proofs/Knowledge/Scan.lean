import OntologyPrep.Knowledge.Consultation
import OntologyPrep.Proofs.Knowledge.Told

/-!
# The tables as scans

`KnowledgeBase.Complete` is the other half of `KnowledgeBase.Faithful`: the tables hold all that told
statements say, and a column of the index holds its statements in the order of telling.  Telling keeps
it, so that

* `KnowledgeBase.having_eq`         asking by position and atom is a scan over the told terms;
* `KnowledgeBase.mem_parents_iff`, `KnowledgeBase.mem_classes_iff`   a table holds a pair exactly if some
                                    told statement says it;
* `KnowledgeBase.told_tellAll`      the told terms are those of the calls, each at its first place;
* `KnowledgeBase.answers_scan`      all of this together, for a knowledge base that has been built by
                                    telling.
-/

namespace OntologyPrep

/-! ## telling -/

/-- the statement puts its second argument over its first one -/
def Term.Says (t : Term) (relation item value : String) : Prop :=
  t.head? = some relation ∧ t.atomAt? 1 = some item ∧ t.atomAt? 2 = some value

namespace KnowledgeBase

variable {kb : KnowledgeBase} {t : Term}

theorem mem_parents_record {sub sup : String} : sup ∈ (kb.record t).parents.getD sub ∅ ↔
    sup ∈ kb.parents.getD sub ∅ ∨ t.Says "subclass" sub sup := by
  unfold record Term.Says
  simp only
  split
  · next h0 h1 h2 =>
    rw [mem_addValue, h0, h1, h2]
    simp [eq_comm]
  · next h0 _ _ => simp [h0]
  · next h0 _ _ => split <;> simp [h0]
  · next h _ _ => exact ⟨.inl, fun hs => hs.resolve_right fun ⟨h0, h1, h2⟩ => h _ _ h0 h1 h2⟩

theorem mem_classes_record {item cls : String} : cls ∈ (kb.record t).classes.getD item ∅ ↔
    cls ∈ kb.classes.getD item ∅ ∨ t.Says "instance" item cls := by
  unfold record Term.Says
  simp only
  split
  · next h0 _ _ => simp [h0]
  · next h0 h1 h2 =>
    rw [mem_addValue, h0, h1, h2]
    simp [eq_comm]
  · next h0 _ _ => split <;> simp [h0]
  · next _ h _ => exact ⟨.inl, fun hs => hs.resolve_right fun ⟨h0, h1, h2⟩ => h _ _ h0 h1 h2⟩

theorem InStep.toldOf_tell (h : kb.InStep) {relation item value : String} :
    (kb.tell t).ToldOf relation item value ↔
      kb.ToldOf relation item value ∨ t.isStatement = true ∧ t.Says relation item value := by
  constructor
  · rintro ⟨u, ⟨hu, hstatement⟩, hsays⟩
    rcases (h.told_tell t).mp hu with hu | rfl
    · exact .inl ⟨u, ⟨hu, hstatement⟩, hsays⟩
    · exact .inr ⟨hstatement, hsays⟩
  · rintro (⟨u, ⟨hu, hstatement⟩, hsays⟩ | ⟨hstatement, hsays⟩)
    · exact ⟨u, ⟨(h.told_tell t).mpr (.inl hu), hstatement⟩, hsays⟩
    · exact ⟨t, ⟨(h.told_tell t).mpr (.inr rfl), hstatement⟩, hsays⟩

/-- a name and all that told terms put over others: more than a search upwards from the name visits -/
def namesAbove (kb : KnowledgeBase) (name : String) : List String :=
  name :: kb.told.toList.filterMap fun t => t.atomAt? 2

/-- the tables hold all that told statements say, the index in the order of telling -/
structure Complete (kb : KnowledgeBase) : Prop extends InStep kb where
  find : ∀ position name, kb.statements position name =
    kb.told.toList.filter fun t => t.isStatement && t.atomAt? position = some name
  parents : ∀ {sub sup : String}, kb.ToldOf "subclass" sub sup → sup ∈ kb.parents.getD sub ∅
  classes : ∀ {item cls : String}, kb.ToldOf "instance" item cls → cls ∈ kb.classes.getD item ∅

theorem complete_empty : empty.Complete where
  toInStep := inStep_empty
  find position name := by simp [statements, empty, Index.find_empty]
  parents h := by obtain ⟨t, ht, -⟩ := h; simp [Told, empty] at ht
  classes h := by obtain ⟨t, ht, -⟩ := h; simp [Told, empty] at ht

/-- one more term keeps the tables complete -/
theorem Complete.tell (h : kb.Complete) (t : Term) : (kb.tell t).Complete := by
  cases hknows : kb.knows t with
  | true => rwa [tell_of_knows hknows]
  | false =>
    have htell := tell_of_new hknows
    refine ⟨h.toInStep.tell t, ?find, ?parents, ?classes⟩
    case find =>
      intro position name
      have htold : (kb.tell t).told.toList = kb.told.toList ++ [t] := by
        rw [htell, Array.toList_push]
      rw [h.statements_tell, htold, List.filter_append, h.find]
      split
      · next hnew => simp [hnew.2.1, hnew.2.2]
      · next hold => simpa [hknows] using hold
    all_goals cases hs : t.isStatement
    case parents.false =>
      intro sub sup hsays
      rw [htell, hs, if_neg Bool.false_ne_true]
      exact h.parents ((h.toldOf_tell.mp hsays).resolve_right fun ht => by simp [hs] at ht)
    case parents.true =>
      intro sub sup hsays
      rw [htell, hs, if_pos rfl]
      exact mem_parents_record.mpr ((h.toldOf_tell.mp hsays).imp h.parents And.right)
    case classes.false =>
      intro item cls hsays
      rw [htell, hs, if_neg Bool.false_ne_true]
      exact h.classes ((h.toldOf_tell.mp hsays).resolve_right fun ht => by simp [hs] at ht)
    case classes.true =>
      intro item cls hsays
      rw [htell, hs, if_pos rfl]
      exact mem_classes_record.mpr ((h.toldOf_tell.mp hsays).imp h.classes And.right)

theorem Complete.tellAll (h : kb.Complete) (ts : List Term) : (kb.tellAll ts).Complete := by
  induction ts generalizing kb with
  | nil => exact h
  | cons t ts ih => exact ih (h.tell t)

/-- a knowledge base that has been built by telling is complete -/
theorem complete_tellAll (ts : List Term) : (empty.tellAll ts).Complete := complete_empty.tellAll ts

/-! ## what has been told -/

/-- a term is put behind those told before it, unless it is one of them -/
theorem InStep.told_tellAll_of_eq (hkb : kb.InStep) {us : List Term}
    (h : kb.told.toList = us.eraseDups) (ts : List Term) :
    (kb.tellAll ts).told.toList = (us ++ ts).eraseDups := by
  induction ts generalizing kb us with
  | nil => rw [List.append_nil]; exact h
  | cons t ts ih =>
    have htold : (kb.tell t).told.toList = (us ++ [t]).eraseDups := by
      rw [List.eraseDups_append, ← h]
      cases hknows : kb.knows t with
      | true =>
        have ht : t ∈ us := by
          rw [← List.mem_eraseDups, ← h, Array.mem_toList_iff]
          exact (hkb.known t).mp hknows
        rw [tell_of_knows hknows]
        simp [List.removeAll, ht]
      | false =>
        have ht : t ∉ us := by
          rw [← List.mem_eraseDups, ← h, Array.mem_toList_iff, ← hkb.known, hknows]
          exact Bool.false_ne_true
        rw [tell_of_new hknows, Array.toList_push]
        simp [List.removeAll, ht, List.eraseDups_cons]
    have hrest := ih (hkb.tell t) htold
    rwa [List.append_assoc] at hrest

/-- the told terms are those of the calls, each at its first place -/
theorem told_tellAll (ts : List Term) : (empty.tellAll ts).told.toList = ts.eraseDups :=
  @InStep.told_tellAll_of_eq empty inStep_empty [] rfl ts

/-! ## asking -/

/-- asking by position and atom is a scan over the told terms -/
theorem Complete.having_eq (h : kb.Complete) (restriction : Nat × String)
    (restrictions : List (Nat × String)) : kb.having (restriction :: restrictions) =
      kb.told.toList.filter fun t => t.isStatement &&
        (restriction :: restrictions).all fun r => t.atomAt? r.1 = some r.2 := by
  obtain ⟨position, name⟩ := restriction
  rw [having, h.find, List.filter_filter]
  refine List.filter_congr fun t _ => ?_
  rw [List.all_cons, Bool.and_comm, Bool.and_assoc]

/-- what is found by a relation and its first argument are the told statements that have both -/
theorem Complete.mem_having_iff (h : kb.Complete) {relation item : String} :
    t ∈ kb.having [(0, relation), (1, item)] ↔
      kb.Told t ∧ t.head? = some relation ∧ t.atomAt? 1 = some item := by
  have hhead : t.atomAt? 0 = t.head? := by
    rw [Term.head?, Term.first?, List.head?_eq_getElem?]
    rfl
  rw [h.having_eq, List.mem_filter, Array.mem_toList_iff, Bool.and_eq_true, Told, and_assoc]
  simp [hhead]

/-- A knowledge base that has been built by telling answers like the list of its terms.  They are held
in the order in which they were told first; a call says whether its term is new; and asking by position
and atom is a scan over the statements, whatever the order of the restrictions and however often they
are repeated. -/
theorem answers_scan (told : List Term) :
    (empty.tellAll told).told.toList = told.eraseDups ∧
    (∀ t found, (Consulted.tell t ⟨empty.tellAll told, found⟩).1 = true ↔ t ∉ told) ∧
    (∀ t, (empty.tellAll told).knows t = true ↔ t ∈ told) ∧
    ∀ restriction restrictions,
      (empty.tellAll told).having (restriction :: restrictions) =
        told.eraseDups.filter (fun t => t.isStatement &&
          (restriction :: restrictions).all fun r => t.atomAt? r.1 = some r.2) ∧
      ∀ restriction' restrictions',
        (∀ r, r ∈ restriction' :: restrictions' ↔ r ∈ restriction :: restrictions) →
          (empty.tellAll told).having (restriction' :: restrictions') =
            (empty.tellAll told).having (restriction :: restrictions) := by
  have hknows : ∀ t, (empty.tellAll told).knows t = true ↔ t ∈ told := by
    intro t
    rw [(complete_tellAll told).known, ← Array.mem_toList_iff, told_tellAll, List.mem_eraseDups]
  have hscan := (complete_tellAll told).having_eq
  rw [told_tellAll] at hscan
  refine ⟨told_tellAll told, fun t found => ?_, hknows, fun r rs => ⟨hscan r rs, fun r' rs' h => ?_⟩⟩
  · rw [← hknows, Consulted.tell]
    cases (empty.tellAll told).knows t <;> simp
  · rw [hscan, hscan]
    refine List.filter_congr fun t _ => ?_
    congr 1
    rw [Bool.eq_iff_iff, List.all_eq_true, List.all_eq_true]
    exact forall_congr' fun x => imp_congr_left (h x)

/-- a statement told twice, one more, and terms that are no statements -/
def membersTold : List Term :=
  [.app "instance" [.atom "p", .atom "B"], .app "instance" [.atom "?X", .atom "B"],
    .app "instance" [.atom "p", .atom "B"], .neg (.app "instance" [.atom "q", .atom "B"]), .list [],
    .app "instance" [.atom "r", .atom "B"]]

/-- two ways to ask for the members of a class, one of them with a repeated restriction -/
theorem answers_scan_members :
    (∀ r, r ∈ [(2, "B"), (0, "instance"), (2, "B")] ↔ r ∈ [(0, "instance"), (2, "B")]) ∧
    (empty.tellAll membersTold).having [(0, "instance"), (2, "B")] =
      [.app "instance" [.atom "p", .atom "B"], .app "instance" [.atom "r", .atom "B"]] ∧
    (empty.tellAll membersTold).having [(2, "B"), (0, "instance"), (2, "B")] =
      (empty.tellAll membersTold).having [(0, "instance"), (2, "B")] := by
  have hsame : ∀ r : Nat × String,
      r ∈ [(2, "B"), (0, "instance"), (2, "B")] ↔ r ∈ [(0, "instance"), (2, "B")] := by
    intro r
    simp only [List.mem_cons, List.not_mem_nil, or_false]
    rw [or_left_comm, or_self]
  obtain ⟨-, -, -, hhaving⟩ := answers_scan membersTold
  obtain ⟨hscan, horder⟩ := hhaving (0, "instance") [(2, "B")]
  exact ⟨hsame, hscan.trans (by cbv), horder _ _ hsame⟩

end KnowledgeBase

end OntologyPrep
