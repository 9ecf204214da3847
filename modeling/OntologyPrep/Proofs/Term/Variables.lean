import OntologyPrep.Distinct
import OntologyPrep.Term.Variables

/-!
# Which variables are free

The free variables of a term, one equivalence for each kind of term:

* `Term.mem_freeVariables_atom`     of an atom that is a variable, the atom itself;
* `Term.mem_freeVariables_binder`   of a quantified formula, those of its body that it does not bind;
* `Term.mem_freeVariables_list`     of any other list, those of its elements.

A list has no variable exactly if none of its elements has one (`Term.containsVariable_list`).
-/

namespace OntologyPrep

theorem Name.ne_of_isVariable {a b : String} (ha : isVariable a = true)
    (hb : isVariable b = false) : a ≠ b := by
  rintro rfl
  rw [ha] at hb
  cases hb

theorem Quantifier.not_isVariable (q : Quantifier) : Name.isVariable q.name = false := by
  cases q <;> decide

theorem Name.isQuantifier_of_isVariable {a : String} (h : isVariable a = true) :
    isQuantifier a = false := by
  cases hq : isQuantifier a with
  | false => rfl
  | true =>
    obtain ⟨q, hq⟩ := Option.isSome_iff_exists.mp hq
    rw [← Quantifier.name_of_ofName? hq, Quantifier.not_isVariable] at h
    cases h

theorem Name.ne_operator_of_isVariable {a : String} (h : isVariable a = true) (o : Operator) :
    a ≠ o.name := by
  rintro rfl
  rcases o with _ | _ | _ | _ | _ | (_ | _) <;> cases h

theorem Operator.not_isVariable (o : Operator) : Name.isVariable o.name = false := by
  cases o with
  | quant q => exact q.not_isVariable
  | _ => decide

theorem Name.ne_operator_of_not_isOperator {a : String} (h : isOperator a = false) (o : Operator) :
    a ≠ o.name := by
  rintro rfl
  rw [isOperator, Operator.ofName?_name] at h
  cases h

theorem Operator.ofName?_of_isVariable {a : String} (h : Name.isVariable a = true) :
    ofName? a = none := by
  rw [Option.eq_none_iff_forall_ne_some]
  intro o ho
  exact Name.ne_operator_of_isVariable h o (name_of_ofName? ho).symm

theorem Name.isOperator_of_isVariable {a : String} (h : isVariable a = true) :
    isOperator a = false := by
  rw [isOperator, Operator.ofName?_of_isVariable h]
  rfl

namespace Term

/-! ## bound names -/

theorem names_quantified (q : Quantifier) (names : List String) (body : Term) :
    (Binder.mk q (.list (names.map atom)) body).names = names := by
  show (names.map atom).filterMap name? = names
  rw [List.filterMap_map]
  exact List.filterMap_some

theorem quantified_eq_toTerm (q : Quantifier) (names : List String) (body : Term) :
    quantified q.name names body = (Binder.mk q (.list (names.map atom)) body).toTerm := rfl

theorem binder?_quantified (q : Quantifier) (names : List String) (body : Term) :
    (quantified q.name names body).binder? = some ⟨q, .list (names.map atom), body⟩ :=
  binder?_toTerm ⟨q, .list (names.map atom), body⟩

/-- only a list that starts with a quantifier is a quantified formula -/
theorem binder?_app_eq_none {head : String} (args : List Term)
    (h : Name.isQuantifier head = false) : (app head args).binder? = none := by
  rw [Option.eq_none_iff_forall_ne_some]
  intro b hb
  have he := binder?_eq_some_iff.mp hb
  rw [app, Binder.toTerm, list.injEq, List.cons.injEq, atom.injEq] at he
  rw [he.1, Name.isQuantifier, Quantifier.ofName?_name] at h
  cases h

/-! ## free variables -/

theorem boundNames_binder (b : Binder) : b.toTerm.boundNames = b.names := by
  rw [boundNames, binder?_toTerm]

theorem boundNames_of_binder?_eq_none {t : Term} (h : t.binder? = none) : t.boundNames = [] := by
  rw [boundNames, h]

/-- names around a term only take occurrences away -/
theorem mem_freeOccurrences {t : Term} {bound : List String} {name : String} :
    name ∈ t.freeOccurrences bound ↔ name ∈ t.freeOccurrences [] ∧ name ∉ bound := by
  induction t using binderInduction generalizing bound with
  | atom a =>
    rw [freeOccurrences_atom, freeOccurrences_atom]
    by_cases ha : Name.isVariable a = true <;> by_cases hb : a ∈ bound <;>
      simp [ha, hb] <;> grind
  | binder b ih =>
    rw [freeOccurrences_binder, freeOccurrences_binder, ih, @ih (b.names ++ [])]
    simp [and_assoc]
  | list xs hn ih =>
    rw [freeOccurrences_list _ hn, freeOccurrences_list _ hn, List.mem_flatMap, List.mem_flatMap]
    constructor
    · rintro ⟨x, hx, hm⟩
      have h := (ih x hx).mp hm
      exact ⟨⟨x, hx, h.1⟩, h.2⟩
    · rintro ⟨⟨x, hx, hm⟩, hb⟩
      exact ⟨x, hx, (ih x hx).mpr ⟨hm, hb⟩⟩

theorem mem_freeVariables {t : Term} {name : String} :
    name ∈ t.freeVariables ↔ name ∈ t.freeOccurrences [] := by
  rw [freeVariables, List.mem_eraseDups]

theorem mem_freeVariables_atom {a name : String} :
    name ∈ (atom a).freeVariables ↔ Name.isVariable a = true ∧ name = a := by
  rw [mem_freeVariables, freeOccurrences_atom]
  by_cases h : Name.isVariable a = true <;> simp [h]

theorem mem_freeVariables_binder {b : Binder} {name : String} :
    name ∈ b.toTerm.freeVariables ↔ name ∈ b.body.freeVariables ∧ name ∉ b.names := by
  rw [mem_freeVariables, freeOccurrences_binder, mem_freeOccurrences, mem_freeVariables,
    List.append_nil]

theorem mem_freeVariables_list {xs : List Term} (h : (list xs).binder? = none) {name : String} :
    name ∈ (list xs).freeVariables ↔ ∃ x ∈ xs, name ∈ x.freeVariables := by
  rw [mem_freeVariables, freeOccurrences_list _ h, List.mem_flatMap]
  simp only [mem_freeVariables]

theorem isVariable_of_mem_freeVariables {t : Term} {name : String} (h : name ∈ t.freeVariables) :
    Name.isVariable name = true := by
  induction t using binderInduction with
  | atom a =>
    obtain ⟨ha, rfl⟩ := mem_freeVariables_atom.mp h
    exact ha
  | binder b ih => exact ih (mem_freeVariables_binder.mp h).1
  | list xs hn ih =>
    obtain ⟨x, hx, hm⟩ := (mem_freeVariables_list hn).mp h
    exact ih x hx hm

theorem mem_atoms_of_mem_names {b : Binder} {a : String} (h : a ∈ b.names) : a ∈ b.toTerm.atoms := by
  rw [Binder.toTerm, atoms_list]
  refine List.mem_flatMap.mpr ⟨b.entries, by simp, ?_⟩
  rcases b with ⟨q, entries, body⟩
  cases entries with
  | atom n => simpa [Binder.names] using h
  | list xs =>
    obtain ⟨x, hx, ha⟩ := List.mem_filterMap.mp h
    rw [name?_eq_some_iff.mp ha] at hx
    rw [atoms_list]
    exact List.mem_flatMap.mpr ⟨.atom a, hx, by simp⟩

theorem mem_atoms_of_mem_body {b : Binder} {a : String} (h : a ∈ b.body.atoms) :
    a ∈ b.toTerm.atoms := by
  rw [Binder.toTerm, atoms_list]
  exact List.mem_flatMap.mpr ⟨b.body, by simp, h⟩

theorem mem_atoms_of_mem_freeVariables {t : Term} {name : String} (h : name ∈ t.freeVariables) :
    name ∈ t.atoms := by
  induction t using binderInduction with
  | atom a =>
    rw [(mem_freeVariables_atom.mp h).2, atoms_atom]
    exact List.mem_singleton_self a
  | binder b ih => exact mem_atoms_of_mem_body (ih (mem_freeVariables_binder.mp h).1)
  | list xs hn ih =>
    obtain ⟨x, hx, hm⟩ := (mem_freeVariables_list hn).mp h
    rw [atoms_list]
    exact List.mem_flatMap.mpr ⟨x, hx, ih x hx hm⟩

/-- every free variable is listed once -/
theorem nodup_freeVariables (t : Term) : t.freeVariables.Nodup := Distinct.nodup_eraseDups _

/-! ## all variables -/

theorem mem_variableNames {t : Term} {a : String} :
    a ∈ t.variableNames ↔ a ∈ t.atoms ∧ Name.isVariable a = true := by
  rw [variableNames, List.mem_eraseDups, List.mem_filter]

theorem mem_variableNames_list {xs : List Term} {a : String} :
    a ∈ (list xs).variableNames ↔ ∃ x ∈ xs, a ∈ x.variableNames := by
  simp only [mem_variableNames, atoms_list, List.mem_flatMap]
  exact ⟨fun ⟨⟨x, hx, ha⟩, hv⟩ => ⟨x, hx, ha, hv⟩, fun ⟨x, hx, ha, hv⟩ => ⟨⟨x, hx, ha⟩, hv⟩⟩

/-! ## terms without variables -/

theorem containsVariable_eq_false_iff {t : Term} :
    t.containsVariable = false ↔ ∀ a ∈ t.atoms, Name.isVariable a = false := by
  rw [Term.containsVariable, List.any_eq_false]
  simp only [Bool.not_eq_true]

theorem containsVariable_list {xs : List Term} :
    (list xs).containsVariable = false ↔ ∀ x ∈ xs, x.containsVariable = false := by
  simp only [containsVariable_eq_false_iff, atoms_list, List.mem_flatMap]
  constructor
  · intro h x hx a ha
    exact h a ⟨x, hx, ha⟩
  · rintro h a ⟨x, hx, ha⟩
    exact h x hx a ha

theorem containsVariable_of_mem_items {t x : Term} (h : t.containsVariable = false)
    (hx : x ∈ t.items) : x.containsVariable = false := by
  cases t with
  | atom a => cases hx
  | list xs => exact containsVariable_list.mp h x hx

/-- a term without variables has no free ones -/
theorem freeVariables_eq_nil {t : Term} (h : t.containsVariable = false) : t.freeVariables = [] := by
  refine List.eq_nil_iff_forall_not_mem.mpr fun a ha => ?_
  have hvar := isVariable_of_mem_freeVariables ha
  rw [containsVariable_eq_false_iff.mp h a (mem_atoms_of_mem_freeVariables ha)] at hvar
  cases hvar

theorem containsVariable_atom (a : String) :
    (atom a).containsVariable = Name.isVariable a := by simp [containsVariable]

theorem mem_items_of_atomAt? {t : Term} {position : Nat} {a : String}
    (h : t.atomAt? position = some a) : .atom a ∈ t.items := by
  obtain ⟨x, hx, ha⟩ := Option.bind_eq_some_iff.mp h
  rw [name?_eq_some_iff.mp ha] at hx
  exact List.mem_of_getElem? hx

/-! ## parts -/

theorem mem_atoms_of_mem_items {t x : Term} (hx : x ∈ t.items) {a : String} (ha : a ∈ x.atoms) :
    a ∈ t.atoms := by
  cases t with
  | atom b => cases hx
  | list xs =>
    rw [atoms_list]
    exact List.mem_flatMap.mpr ⟨x, hx, ha⟩

theorem mem_atoms_of_atomAt? {t : Term} {position : Nat} {a : String}
    (h : t.atomAt? position = some a) : a ∈ t.atoms :=
  mem_atoms_of_mem_items (mem_items_of_atomAt? h) (by simp)

/-- the atoms of a part are atoms of the term -/
theorem mem_atoms_of_mem_subterms {t u : Term} (hu : u ∈ t.subterms) {a : String}
    (ha : a ∈ u.atoms) : a ∈ t.atoms := by
  match t with
  | .atom b =>
    rw [subterms_atom, List.mem_singleton] at hu
    exact hu ▸ ha
  | .list xs =>
    rw [subterms_list] at hu
    rcases List.mem_cons.mp hu with rfl | hu
    · exact ha
    · obtain ⟨x, hx, hux⟩ := List.mem_flatMap.mp hu
      rw [atoms_list]
      exact List.mem_flatMap.mpr ⟨x, hx, mem_atoms_of_mem_subterms hux ha⟩

/-- an applied variable is a variable of the term -/
theorem containsVariable_of_hasVariableHead {t : Term} (h : t.hasVariableHead = true) :
    t.containsVariable = true := by
  obtain ⟨u, hu, hfirst⟩ := List.any_eq_true.mp h
  obtain ⟨x, hx, hv⟩ := (Option.any_eq_true _ _).mp hfirst
  obtain ⟨a, ha, hva⟩ := (Option.any_eq_true _ _).mp hv
  rw [name?_eq_some_iff.mp ha] at hx
  refine List.any_eq_true.mpr ⟨a, mem_atoms_of_mem_subterms hu ?_, hva⟩
  cases u with
  | atom b => cases hx
  | list xs =>
    rw [atoms_list]
    exact List.mem_flatMap.mpr ⟨.atom a, List.mem_of_head? hx, by simp⟩

end Term

end OntologyPrep
