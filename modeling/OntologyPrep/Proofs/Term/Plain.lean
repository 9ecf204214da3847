import OntologyPrep.Proofs.Term.Variables

/-!
# Terms without operators

A term is nonlogical if no list in it is headed by a logical operator.  No part of it then looks like a
formula, so that nothing that works on formulas changes it.  A plain term has no logical operator at all.
-/

namespace OntologyPrep.Term

/-- no atom is a logical operator -/
def Plain (t : Term) : Prop := ∀ a ∈ t.atoms, Name.isOperator a = false

theorem Plain.of_mem {xs : List Term} (h : (list xs).Plain) {x : Term} (hx : x ∈ xs) : x.Plain := by
  intro a ha
  refine h a ?_
  rw [atoms_list]
  exact List.mem_flatMap.mpr ⟨x, hx, ha⟩

theorem plain_atom {a : String} (h : Name.isOperator a = false) : (atom a).Plain := by
  intro b hb
  rw [atoms_atom, List.mem_singleton] at hb
  exact hb ▸ h

theorem plain_list {xs : List Term} (h : ∀ x ∈ xs, x.Plain) : (list xs).Plain := by
  intro a ha
  rw [atoms_list] at ha
  obtain ⟨x, hx, ha⟩ := List.mem_flatMap.mp ha
  exact h x hx a ha

/-- a list of variables is plain -/
theorem plain_names {names : List String} (h : ∀ n ∈ names, Name.isVariable n = true) :
    (list (names.map atom)).Plain :=
  plain_list (List.forall_mem_map.mpr fun n hn => plain_atom (Name.isOperator_of_isVariable (h n hn)))

theorem eq_apply_of_operator? {t : Term} {o : Operator} (h : t.operator? = some o) :
    t = .apply o t.args := by
  obtain ⟨a, ha, ho⟩ := Option.bind_eq_some_iff.mp h
  obtain ⟨x, hx, hn⟩ := Option.bind_eq_some_iff.mp ha
  cases t with
  | atom b => cases hx
  | list xs =>
    cases xs with
    | nil => cases hx
    | cons y ys =>
      cases hx
      rw [name?_eq_some_iff.mp hn, ← Operator.name_of_ofName? ho]
      rfl

theorem Plain.hasOperatorHead {t : Term} (h : t.Plain) : t.hasOperatorHead = false := by
  match t with
  | .atom _ => rfl
  | .list [] => rfl
  | .list (.list _ :: _) => rfl
  | .list (.atom a :: args) => exact h.of_mem List.mem_cons_self a (by simp)

/-! ## lists without an operator at the head -/

/-- no list is headed by a logical operator -/
def Nonlogical (t : Term) : Prop := ∀ u ∈ t.subterms, u.operator? = none

theorem Nonlogical.of_mem {xs : List Term} (h : (list xs).Nonlogical) {x : Term} (hx : x ∈ xs) :
    x.Nonlogical := by
  intro u hu
  refine h u ?_
  rw [subterms_list]
  exact List.mem_cons_of_mem _ (List.mem_flatMap.mpr ⟨x, hx, hu⟩)

theorem nonlogical_atom (a : String) : (atom a).Nonlogical := by
  intro u hu
  rw [subterms_atom, List.mem_singleton] at hu
  rw [hu]
  rfl

theorem nonlogical_list {xs : List Term} (hhead : (list xs).operator? = none)
    (h : ∀ x ∈ xs, x.Nonlogical) : (list xs).Nonlogical := by
  intro u hu
  rw [subterms_list] at hu
  rcases List.mem_cons.mp hu with rfl | hu
  · exact hhead
  · obtain ⟨x, hx, hu⟩ := List.mem_flatMap.mp hu
    exact h x hx u hu

theorem Plain.nonlogical {t : Term} (h : t.Plain) : t.Nonlogical := by
  match t with
  | .atom a => exact nonlogical_atom a
  | .list xs =>
    have hhead := h.hasOperatorHead
    rw [Term.hasOperatorHead] at hhead
    refine nonlogical_list (Option.not_isSome_iff_eq_none.mp ?_) fun x hx => (h.of_mem hx).nonlogical
    rw [hhead]
    decide

theorem Nonlogical.head_ne {a : String} {args : List Term} (h : (list (.atom a :: args)).Nonlogical)
    (o : Operator) : a ≠ o.name := by
  rintro rfl
  have hhead := h _ (self_mem_subterms _)
  rw [operator?, head?_list_cons, name?_atom, Option.bind_some, Operator.ofName?_name] at hhead
  cases hhead

theorem not_nonlogical_apply (o : Operator) (args : List Term) : ¬ (apply o args).Nonlogical :=
  fun h => h.head_ne o rfl

theorem not_plain_apply (o : Operator) (args : List Term) : ¬ (apply o args).Plain :=
  fun h => not_nonlogical_apply o args h.nonlogical

theorem Plain.head_ne {a : String} {args : List Term} (h : (list (.atom a :: args)).Plain)
    (o : Operator) : a ≠ o.name := h.nonlogical.head_ne o

theorem Nonlogical.binder?_eq_none {t : Term} (h : t.Nonlogical) : t.binder? = none := by
  rw [Option.eq_none_iff_forall_ne_some]
  intro b hb
  rw [binder?_eq_some_iff.mp hb] at h
  exact h.head_ne (.quant b.quantifier) rfl

theorem Plain.binder?_eq_none {t : Term} (h : t.Plain) : t.binder? = none :=
  h.nonlogical.binder?_eq_none

end OntologyPrep.Term
