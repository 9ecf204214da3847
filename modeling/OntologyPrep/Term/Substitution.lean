import OntologyPrep.Term.Basic

/-!
# Replacing atoms

* `Term.substitute`   one name by one term, where the name is free;
* `Term.instantiate`  every bound name of a table by its term, wherever it stands;
* `Term.splice`       a row variable by a sequence of terms;
* `Term.mapAtoms`     every spelling by another one.

Substitution does not rename: it stops at a quantified formula that binds the name
(`Term.substitute_of_bound`) and replaces the name everywhere else, heads and entries included.
-/

namespace OntologyPrep.Term

/-- the free occurrences of a name replaced by a term -/
def substitute (t : Term) (name : String) (value : Term) : Term :=
  match t with
  | .atom a => if a = name then value else .atom a
  | .list items =>
    if (Term.list items).boundNames.contains name then .list items
    else .list (items.map fun x => x.substitute name value)

theorem substitute_atom (a name : String) (value : Term) :
    (atom a).substitute name value = if a = name then value else .atom a := by
  rw [substitute]

theorem substitute_of_bound {t : Term} {name : String} (value : Term)
    (h : name ∈ t.boundNames) : t.substitute name value = t := by
  cases t with
  | atom a => simp [boundNames] at h
  | list xs => rw [substitute, if_pos (by simpa using h)]

theorem substitute_list {xs : List Term} {name : String} (value : Term)
    (h : name ∉ (list xs).boundNames) :
    (list xs).substitute name value = .list (xs.map fun x => x.substitute name value) := by
  rw [substitute, if_neg (by simpa using h)]

theorem name?_substitute (t : Term) (name : String) (value : Term) :
    (t.substitute name value).name? = if t = .atom name then value.name? else t.name? := by
  cases t with
  | atom a =>
    rw [substitute_atom]
    by_cases h : a = name <;> simp [h]
  | list xs =>
    have hne : list xs ≠ .atom name := by simp
    rw [if_neg hne, Term.substitute]
    split <;> rfl

/-- no list becomes a quantified formula unless a quantifier is put into it -/
theorem isSome_binder?_of_substitute {xs : List Term} {name : String} {value : Term}
    (hvalue : ∀ q : Quantifier, value ≠ .atom q.name)
    (h : (list (xs.map fun x => x.substitute name value)).binder?.isSome = true) :
    (list xs).binder?.isSome = true := by
  obtain ⟨b, hb⟩ := Option.isSome_iff_exists.mp h
  have hl := binder?_eq_some_iff.mp hb
  rw [Binder.toTerm, list.injEq] at hl
  obtain ⟨x, xs, rfl, hx, hl⟩ := List.map_eq_cons_iff.mp hl
  obtain ⟨entries, xs, rfl, _, hl⟩ := List.map_eq_cons_iff.mp hl
  obtain ⟨body, xs, rfl, _, hl⟩ := List.map_eq_cons_iff.mp hl
  obtain rfl := List.map_eq_nil_iff.mp hl
  cases x with
  | atom a =>
    rw [substitute_atom] at hx
    split at hx
    · exact absurd hx (hvalue _)
    · rw [atom.injEq] at hx
      simp [binder?, hx]
  | list ys =>
    rw [substitute] at hx
    split at hx <;> cases hx

/-- every atom that the table gives a term for replaced by that term -/
def instantiate (t : Term) (value? : String → Option Term) : Term :=
  match t with
  | .atom a => (value? a).getD (.atom a)
  | .list items => .list (items.map fun x => x.instantiate value?)

theorem instantiate_atom (a : String) (value? : String → Option Term) :
    (atom a).instantiate value? = (value? a).getD (.atom a) := by
  rw [instantiate]

theorem instantiate_list (xs : List Term) (value? : String → Option Term) :
    (list xs).instantiate value? = .list (xs.map fun x => x.instantiate value?) := by
  rw [instantiate]

/-- a row variable replaced by a sequence of terms, in every list that has it as an element -/
def splice (t : Term) (row : String) (sequence : List Term) : Term :=
  match t with
  | .atom a => .atom a
  | .list items =>
    .list (items.flatMap fun x =>
      if x = .atom row then sequence else [x.splice row sequence])

/-- every spelling replaced by another one -/
def mapAtoms (t : Term) (f : String → String) : Term :=
  match t with
  | .atom a => .atom (f a)
  | .list items => .list (items.map fun x => x.mapAtoms f)

theorem mapAtoms_atom (a : String) (f : String → String) :
    (atom a).mapAtoms f = .atom (f a) := by
  rw [mapAtoms]

theorem mapAtoms_list (xs : List Term) (f : String → String) :
    (list xs).mapAtoms f = .list (xs.map fun x => x.mapAtoms f) := by
  rw [mapAtoms]

end OntologyPrep.Term
