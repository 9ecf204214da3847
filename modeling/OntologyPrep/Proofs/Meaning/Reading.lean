import OntologyPrep.Predicate.Simplification
import OntologyPrep.Proofs.Meaning.Substitution
import OntologyPrep.Proofs.Term.Plain

/-!
# Relations as values

A reading gives every constant a value; what an application denotes, and whether it holds, depends on
the values of its head and its arguments.  Relations are values like others, so that a variable may be
applied.

* `Term.IsApplication`   a list in which no logical operator occurs;
* `Reading.Models`       the universal closure of a formula is true.
-/

namespace OntologyPrep

universe u

/-- what constants and applications stand for -/
structure Reading (D : Type u) where
  constant : String → D
  apply : List D → D
  holds : List D → Prop

namespace Reading

variable {D : Type u}

/-- the value of a term -/
def denote (R : Reading D) (v : Valuation D) : Term → D
  | .atom a => if Name.isVariable a then v a else R.constant a
  | .list items => R.apply (items.map fun x => R.denote v x)

/-- an application holds -/
def Says (R : Reading D) (v : Valuation D) (t : Term) : Prop :=
  R.holds (t.items.map fun x => R.denote v x)

/-- the formula is true for all values of its free variables -/
def Models (R : Reading D) (t : Term) : Prop := ∀ v, t.Truth R.Says v

theorem denote_list (R : Reading D) (v : Valuation D) (items : List Term) :
    R.denote v (.list items) = R.apply (items.map fun x => R.denote v x) := by
  rw [denote]

end Reading

namespace Term

/-! ## applications -/

/-- an application of anything to anything in which no logical operator occurs -/
def IsApplication (t : Term) : Prop := t.isList = true ∧ t.Plain

/-- an application, or truth -/
def IsBasic (t : Term) : Prop := t.IsApplication ∨ t = verum

theorem substitute_plain {xs : List Term} (h : (list xs).Plain) (name : String) (value : Term) :
    (list xs).substitute name value = .list (xs.map fun x => x.substitute name value) := by
  refine substitute_list value ?_
  rw [boundNames_of_binder?_eq_none h.binder?_eq_none]
  exact List.not_mem_nil

theorem IsApplication.exists_items {t : Term} (h : t.IsApplication) : ∃ xs, t = .list xs := by
  cases t with
  | atom a => exact absurd h.1 (by simp [isList])
  | list xs => exact ⟨xs, rfl⟩

theorem IsApplication.substitute {t : Term} (h : t.IsApplication) (name : String) {value : Term}
    (hvalue : value.Plain) : (t.substitute name value).IsApplication := by
  obtain ⟨xs, rfl⟩ := h.exists_items
  refine ⟨?_, h.2.substitute name hvalue⟩
  rw [substitute_plain h.2]
  rfl

theorem IsBasic.substitute {t : Term} (h : t.IsBasic) {name : String} {value : Term}
    (hvar : Name.isVariable name = true) (hvalue : value.Plain) :
    (t.substitute name value).IsBasic := by
  rcases h with h | rfl
  · exact .inl (h.substitute name hvalue)
  · rw [verum, substitute_atom, if_neg (Name.ne_of_isVariable hvar (by decide)).symm]
    exact .inr rfl

/-! ## what they say -/

section

variable {D : Type u} {R : Reading D}

theorem denote_congr_plain {t : Term} (ht : t.Plain) {v w : Valuation D}
    (h : ∀ a ∈ t.freeVariables, v a = w a) : R.denote v t = R.denote w t := by
  induction t using binderInduction with
  | atom a =>
    rw [Reading.denote, Reading.denote]
    split
    · next ha => exact h a (mem_freeVariables_atom.mpr ⟨ha, rfl⟩)
    · rfl
  | binder b _ => exact absurd rfl (ht.head_ne (.quant b.quantifier))
  | list xs hb ih =>
    rw [Reading.denote_list, Reading.denote_list]
    refine congrArg _ (List.map_congr_left fun x hx => ih x hx (ht.of_mem hx) fun a ha => h a ?_)
    exact (mem_freeVariables_list hb).mpr ⟨x, hx, ha⟩

theorem denote_substitute_plain {t : Term} (ht : t.Plain) {name : String} {value : Term}
    (hvar : Name.isVariable name = true) (v : Valuation D) :
    R.denote v (t.substitute name value) =
      R.denote (Function.update v name (R.denote v value)) t := by
  induction t using binderInduction with
  | atom a =>
    rw [substitute_atom, Reading.denote]
    split
    · next he =>
      subst he
      rw [if_pos hvar, Function.update_self]
    · next he => rw [Reading.denote, Function.update_of_ne he]
  | binder b _ => exact absurd rfl (ht.head_ne (.quant b.quantifier))
  | list xs _ ih =>
    rw [substitute_plain ht, Reading.denote_list, Reading.denote_list, List.map_map]
    exact congrArg _ (List.map_congr_left fun x hx => ih x hx (ht.of_mem hx))

theorem truth_of_isApplication {t : Term} (ht : t.IsApplication) {v : Valuation D} :
    t.Truth R.Says v ↔ R.Says v t := by
  obtain ⟨xs, rfl⟩ := ht.exists_items
  cases xs with
  | nil => rw [Truth] <;> simp
  | cons x args =>
    cases x with
    | list ys => rw [Truth] <;> simp
    | atom a => exact truth_app args (ht.2.of_mem List.mem_cons_self a (by simp))

/-- the values of its variables decide whether an application holds -/
theorem local_isBasic (R : Reading D) : Local R.Says IsBasic := by
  rintro t (ht | rfl) v w h
  · rw [truth_of_isApplication ht, truth_of_isApplication ht, Reading.Says, Reading.Says]
    obtain ⟨xs, rfl⟩ := ht.exists_items
    rw [items_list, List.map_congr_left fun x hx => denote_congr_plain (ht.2.of_mem hx) fun a ha =>
      h a ((mem_freeVariables_list ht.2.binder?_eq_none).mpr ⟨x, hx, ha⟩)]
  · exact iff_of_true truth_verum truth_verum

theorem truth_substitute_of_isBasic {t : Term} (ht : t.IsBasic) {name : String} {value : Term}
    (hvar : Name.isVariable name = true) (hvalue : value.Plain) (v : Valuation D) :
    (t.substitute name value).Truth R.Says v ↔
      t.Truth R.Says (Function.update v name (R.denote v value)) := by
  rcases ht with ht | rfl
  · rw [truth_of_isApplication (ht.substitute name hvalue), truth_of_isApplication ht, Reading.Says,
      Reading.Says]
    obtain ⟨xs, rfl⟩ := ht.exists_items
    have hitems : (xs.map fun x => x.substitute name value).map (fun x => R.denote v x) =
        xs.map fun x => R.denote (Function.update v name (R.denote v value)) x := by
      rw [List.map_map]
      exact List.map_congr_left fun x hx => denote_substitute_plain (ht.2.of_mem hx) hvar v
    rw [substitute_plain ht.2, items_list, items_list, hitems]
  · rw [verum, substitute_atom, if_neg (Name.ne_of_isVariable hvar (by decide)).symm]
    exact iff_of_true truth_verum truth_verum

/-- a formula with a ground value in the place of a variable is true where the variable has the value -/
theorem truth_substitute_ground {f : Fragment} {t : Term} (ht : t.IsFormula IsBasic f)
    {name : String} {value : Term} (hvar : Name.isVariable name = true) (hvalue : value.Plain)
    (hground : value.containsVariable = false) (v : Valuation D) :
    (t.substitute name value).Truth R.Says v ↔
      t.Truth R.Says (Function.update v name (R.denote v value)) := by
  have hscope : ∀ a ∈ ([] : List String), a ∉ t.bound := fun a ha => absurd ha List.not_mem_nil
  refine truth_substitute hvar (fun v w _ => denote_congr_plain hvalue fun a ha => ?_)
    (fun s hs v => truth_substitute_of_isBasic hs hvar hvalue v) (local_isBasic R) ht hscope v
  rw [freeVariables_eq_nil hground] at ha
  cases ha

end

end Term

end OntologyPrep
