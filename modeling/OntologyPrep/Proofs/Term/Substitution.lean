import Mathlib.Data.List.Basic
import OntologyPrep.Proofs.Term.Path
import OntologyPrep.Proofs.Term.Variables
import OntologyPrep.Term.Substitution

/-!
# A term without variables in the place of a variable

Substitution and the list of free variables walk through a term in different ways: the one goes into the
entries of a quantified formula, the other does not.  They agree on what is bound: a quantified formula
stays one with the same bound names (`Term.substitute_toTerm`, `Term.names_substitute`), and no other list
becomes one unless a quantifier is put in (`Term.isSome_binder?_of_substitute`).

* `Term.BindsAt`             a quantified formula around the place binds the name;
* `Term.substitute_closed`   the variable is no longer free, the other free variables are what they were
                             and in the same order, and the variable stays exactly where it is bound.
-/

namespace OntologyPrep

/-- the quantified formula with a term in the place of a name -/
def Binder.substitute (b : Binder) (name : String) (value : Term) : Binder :=
  ⟨b.quantifier, b.entries.substitute name value, b.body.substitute name value⟩

namespace Term

variable {name : String} {value : Term}

/-! ## quantified formulas -/

/-- a quantified formula that does not bind the name is gone through part by part -/
theorem substitute_toTerm (hname : Name.isVariable name = true) {b : Binder} (h : name ∉ b.names)
    (value : Term) : b.toTerm.substitute name value = (b.substitute name value).toTerm := by
  have hhead : b.quantifier.name ≠ name :=
    (Name.ne_of_isVariable hname b.quantifier.not_isVariable).symm
  rw [← boundNames_binder, Binder.toTerm] at h
  rw [Binder.toTerm, substitute_list value h, List.map_cons, List.map_cons, List.map_singleton,
    substitute_atom, if_neg hhead]
  rfl

/-- the entries bind the names that they bound: lists among them stay lists -/
theorem names_substitute {b : Binder} (h : name ∉ b.names) (value : Term) :
    (b.substitute name value).names = b.names := by
  rcases b with ⟨q, entries, body⟩
  rw [Binder.substitute]
  cases entries with
  | atom a =>
    have hne : a ≠ name := fun he => h (by simp [Binder.names, he])
    rw [substitute_atom, if_neg hne]
    rfl
  | list xs =>
    by_cases hb : name ∈ (list xs).boundNames
    · rw [substitute_of_bound value hb]
      rfl
    · rw [substitute_list value hb]
      show (xs.map _).filterMap name? = xs.filterMap name?
      rw [List.filterMap_map]
      refine List.filterMap_congr fun x hx => ?_
      rw [Function.comp_apply, name?_substitute, if_neg]
      rintro rfl
      exact h (List.mem_filterMap.mpr ⟨_, hx, rfl⟩)

theorem binder?_map_substitute (hvalue : ∀ q : Quantifier, value ≠ .atom q.name) {xs : List Term}
    (h : (list xs).binder? = none) :
    (list (xs.map fun x => x.substitute name value)).binder? = none := by
  refine Option.not_isSome_iff_eq_none.mp fun hsome => ?_
  have hbinder := isSome_binder?_of_substitute hvalue hsome
  rw [h] at hbinder
  cases hbinder

/-! ## free occurrences -/

/-- nothing is free in a term without variables -/
theorem freeOccurrences_of_not_containsVariable {t : Term} (h : t.containsVariable = false)
    (bound : List String) : t.freeOccurrences bound = [] := by
  refine List.eq_nil_iff_forall_not_mem.mpr fun a ha => ?_
  have hfree := mem_freeVariables.mpr (mem_freeOccurrences.mp ha).1
  rw [freeVariables_eq_nil h] at hfree
  cases hfree

/-- the free occurrences of the variable are left out, and no others come in -/
theorem freeOccurrences_substitute (hname : Name.isVariable name = true)
    (hclosed : value.containsVariable = false) (hvalue : ∀ q : Quantifier, value ≠ .atom q.name)
    (t : Term) (bound : List String) :
    (t.substitute name value).freeOccurrences bound =
      (t.freeOccurrences bound).filter (· ≠ name) := by
  induction t using binderInduction generalizing bound with
  | atom a =>
    rw [substitute_atom]
    split
    · next he =>
      rw [freeOccurrences_of_not_containsVariable hclosed, he, freeOccurrences_atom]
      split <;> simp
    · next hne =>
      rw [freeOccurrences_atom]
      split <;> simp [hne]
  | binder b ih =>
    by_cases hb : name ∈ b.names
    · rw [substitute_of_bound value (by rwa [boundNames_binder]), List.filter_eq_self.mpr]
      intro a ha
      rw [freeOccurrences_binder, mem_freeOccurrences, List.mem_append, not_or] at ha
      simpa using fun he : a = name => ha.2.1 (he ▸ hb)
    · rw [substitute_toTerm hname hb, freeOccurrences_binder, names_substitute hb,
        freeOccurrences_binder]
      exact ih (b.names ++ bound)
  | list xs hn ih =>
    have hbound : name ∉ (list xs).boundNames := by
      rw [boundNames_of_binder?_eq_none hn]
      exact List.not_mem_nil
    rw [substitute_list value hbound, freeOccurrences_list _ (binder?_map_substitute hvalue hn),
      freeOccurrences_list _ hn, List.flatMap_map, List.filter_flatMap]
    exact List.flatMap_congr fun x hx => ih x hx bound

/-! ## places -/

/-- a quantified formula around the place binds the name -/
def BindsAt (t : Term) (name : String) (path : List Nat) : Prop :=
  ∃ outer inner u, path = outer ++ inner ∧ t.part? outer = some u ∧ name ∈ u.boundNames

theorem bindsAt_nil {t : Term} : t.BindsAt name [] ↔ name ∈ t.boundNames := by
  constructor
  · rintro ⟨outer, inner, u, hpath, hu, hmem⟩
    obtain ⟨rfl, rfl⟩ := List.append_eq_nil_iff.mp hpath.symm
    cases hu
    exact hmem
  · exact fun h => ⟨[], [], t, rfl, part?_nil t, h⟩

/-- the formula is the term itself, or it is around the place in an element -/
theorem bindsAt_cons {t : Term} {i : Nat} {path : List Nat} : t.BindsAt name (i :: path) ↔
    name ∈ t.boundNames ∨ ∃ x, t.items[i]? = some x ∧ x.BindsAt name path := by
  constructor
  · rintro ⟨outer, inner, u, hpath, hu, hmem⟩
    cases outer with
    | nil =>
      cases hu
      exact .inl hmem
    | cons j outer =>
      obtain ⟨rfl, rfl⟩ := List.cons.inj hpath
      rw [part?_cons] at hu
      obtain ⟨x, hx, hu⟩ := Option.bind_eq_some_iff.mp hu
      exact .inr ⟨x, hx, outer, inner, u, rfl, hu, hmem⟩
  · rintro (hmem | ⟨x, hx, outer, inner, u, rfl, hu, hmem⟩)
    · exact ⟨[], i :: path, t, rfl, part?_nil t, hmem⟩
    · refine ⟨i :: outer, inner, u, rfl, ?_, hmem⟩
      rw [part?_cons, hx]
      exact hu

/-- where the variable is bound nothing is replaced, and everywhere else it is -/
theorem part?_substitute (value : Term) {t : Term} {path : List Nat}
    (h : t.part? path = some (.atom name)) :
    (t.BindsAt name path → (t.substitute name value).part? path = some (.atom name)) ∧
      (¬ t.BindsAt name path → (t.substitute name value).part? path = some value) := by
  induction path generalizing t with
  | nil =>
    rw [part?_nil] at h
    cases h
    refine ⟨fun hb => (nomatch bindsAt_nil.mp hb), fun _ => ?_⟩
    rw [substitute_atom, if_pos rfl, part?_nil]
  | cons i path ih =>
    by_cases hb : name ∈ t.boundNames
    · rw [substitute_of_bound value hb]
      exact ⟨fun _ => h, fun hn => absurd (bindsAt_cons.mpr (.inl hb)) hn⟩
    · rw [part?_cons] at h
      obtain ⟨x, hx, hpart⟩ := Option.bind_eq_some_iff.mp h
      cases t with
      | atom a => cases hx
      | list xs =>
        have hsame : ((list xs).substitute name value).part? (i :: path) =
            (x.substitute name value).part? path := by
          rw [substitute_list value hb, part?_cons, items_list, List.getElem?_map,
            show xs[i]? = some x from hx]
          rfl
        have hbinds : (list xs).BindsAt name (i :: path) ↔ x.BindsAt name path := by
          rw [bindsAt_cons, or_iff_right hb, hx]
          simp
        rw [hsame, hbinds]
        exact ih hpart

/-! ## what is left -/

/-- With a term without variables in its place, a variable is not free any more; the other free variables
are the same ones in the same order; and of its occurrences exactly those are left that a quantified
formula around them binds.  The term must not be a bare quantifier, which could make a list a quantified
formula. -/
theorem substitute_closed (hname : Name.isVariable name = true)
    (hclosed : value.containsVariable = false) (hvalue : ∀ q : Quantifier, value ≠ .atom q.name)
    (t : Term) :
    (t.substitute name value).freeVariables = t.freeVariables.filter (· ≠ name) ∧
    ∀ path, t.part? path = some (.atom name) →
      (t.BindsAt name path → (t.substitute name value).part? path = some (.atom name)) ∧
      (¬ t.BindsAt name path → (t.substitute name value).part? path = some value) := by
  refine ⟨?_, fun path h => part?_substitute value h⟩
  rw [freeVariables, freeVariables, freeOccurrences_substitute hname hclosed hvalue,
    Distinct.eraseDups_filter]

/-- `(=> (p ?X ?Y) (exists (?X) (q ?Z ?X)))`, where `?X` is free and bound -/
def freeAndBound : Term :=
  .implies (.app "p" [.atom "?X", .atom "?Y"])
    (.quantified "exists" ["?X"] (.app "q" [.atom "?Z", .atom "?X"]))

/-- the free `?X` is replaced, the bound one stays -/
theorem substitute_closed_freeAndBound :
    Name.isVariable "?X" = true ∧ (app "f" [.atom "a"]).containsVariable = false ∧
    (∀ q : Quantifier, app "f" [.atom "a"] ≠ .atom q.name) ∧
    (freeAndBound.substitute "?X" (.app "f" [.atom "a"])).freeVariables = ["?Y", "?Z"] ∧
    (freeAndBound.substitute "?X" (.app "f" [.atom "a"])).part? [1, 1] =
      some (.app "f" [.atom "a"]) ∧
    (freeAndBound.substitute "?X" (.app "f" [.atom "a"])).part? [2, 2, 2] = some (.atom "?X") := by
  have hname : Name.isVariable "?X" = true := by decide
  have hclosed : (app "f" [.atom "a"]).containsVariable = false := by cbv
  have hvalue : ∀ q : Quantifier, app "f" [.atom "a"] ≠ .atom q.name := by simp [app]
  obtain ⟨hfree, hplaces⟩ := substitute_closed hname hclosed hvalue freeAndBound
  have hnames : freeAndBound.freeVariables = ["?X", "?Y", "?Z"] := by cbv
  have hbound : freeAndBound.BindsAt "?X" [2, 2, 2] := by
    refine ⟨[2], [2, 2], .quantified "exists" ["?X"] (.app "q" [.atom "?Z", .atom "?X"]), rfl, rfl, ?_⟩
    exact List.mem_singleton_self "?X"
  have hopen : ¬ freeAndBound.BindsAt "?X" [1, 1] := by
    simp [bindsAt_cons, bindsAt_nil, freeAndBound, implies, apply, app, boundNames, binder?,
      Quantifier.ofName?, Operator.name]
  refine ⟨hname, hclosed, hvalue, ?_, (hplaces [1, 1] rfl).2 hopen, (hplaces [2, 2, 2] rfl).1 hbound⟩
  rw [hfree, hnames]
  decide

end Term

end OntologyPrep
