import OntologyPrep.Proofs.Meaning.Formula

/-!
# First-order logic

An interpretation gives every symbol a function and a relation; a constant is a function of no
arguments, and an atomic formula without arguments a relation of none.  Variables of both kinds stand
for individuals.

* `Term.IsIndividual`, `Term.IsAtomicFormula`   the terms and the atomic formulas of the logic;
* `Interpretation.denote`, `Interpretation.holds`   what they denote and when they hold;
* `Interpretation.Models`   the universal closure of a formula is true;
* `Interpretation.AgreeOff`   two interpretations differ on the functions of some symbols at most.
-/

namespace OntologyPrep

universe u

/-- what the symbols stand for -/
structure Interpretation (D : Type u) where
  function : String → List D → D
  relation : String → List D → Prop

namespace Interpretation

variable {D : Type u}

/-- the individual that a term denotes; a list without a symbol for a head counts as the application
of the empty one -/
def denote (M : Interpretation D) (v : Valuation D) : Term → D
  | .atom a => if Name.isVariable a then v a else M.function a []
  | .list [] => M.function "" []
  | .list (x :: args) => M.function (x.name?.getD "") (args.map fun y => M.denote v y)

/-- an atomic formula holds -/
def holds (M : Interpretation D) (v : Valuation D) (t : Term) : Prop :=
  M.relation (t.name?.getD (t.head?.getD "")) (t.args.map fun x => M.denote v x)

/-- the formula is true for all values of its free variables -/
def Models (M : Interpretation D) (t : Term) : Prop := ∀ v, t.Truth M.holds v

/-- the second interpretation differs from the first in the functions of the given symbols at most -/
def AgreeOff (changed : String → Prop) (M N : Interpretation D) : Prop :=
  N.relation = M.relation ∧ ∀ f, ¬ changed f → N.function f = M.function f

theorem denote_app (M : Interpretation D) (v : Valuation D) (f : String) (args : List Term) :
    M.denote v (.app f args) = M.function f (args.map fun x => M.denote v x) := by
  rw [Term.app, denote]
  rfl

theorem denote_variable (M : Interpretation D) (v : Valuation D) {a : String}
    (h : Name.isVariable a = true) : M.denote v (.atom a) = v a := by
  rw [denote, if_pos h]

theorem denote_constant (M : Interpretation D) (v : Valuation D) {a : String}
    (h : Name.isVariable a = false) : M.denote v (.atom a) = M.function a [] := by
  rw [denote, if_neg (by simp [h])]

theorem holds_app (M : Interpretation D) (v : Valuation D) (f : String) (args : List Term) :
    M.holds v (.app f args) ↔ M.relation f (args.map fun x => M.denote v x) := Iff.rfl

end Interpretation

/-! ## the terms of the logic -/

/-- a symbol of the logic: no variable and no operator -/
def Name.IsConstant (a : String) : Prop := isVariable a = false ∧ isOperator a = false

theorem Name.IsConstant.not_quantifier {a : String} (h : IsConstant a) :
    isQuantifier a = false := by
  cases hq : isQuantifier a with
  | false => rfl
  | true => rw [← h.2, isOperator_of_isQuantifier hq]

namespace Term

/-- a term that denotes an individual: a variable, a constant, or a constant applied to such terms -/
inductive IsIndividual : Term → Prop where
  | var {a : String} : Name.isVariable a = true → IsIndividual (.atom a)
  | const {a : String} : Name.IsConstant a → IsIndividual (.atom a)
  | app {f : String} {args : List Term} : Name.IsConstant f → (∀ x ∈ args, IsIndividual x) →
    IsIndividual (.app f args)

/-- an atomic formula: a constant, or a constant applied to terms that denote individuals -/
inductive IsAtomicFormula : Term → Prop where
  | const {a : String} : Name.IsConstant a → IsAtomicFormula (.atom a)
  | app {f : String} {args : List Term} : Name.IsConstant f → (∀ x ∈ args, IsIndividual x) →
    IsAtomicFormula (.app f args)

theorem IsAtomicFormula.isIndividual {t : Term} (h : t.IsAtomicFormula) : t.IsIndividual := by
  cases h with
  | const ha => exact .const ha
  | app hf hargs => exact .app hf hargs

theorem IsIndividual.plain {t : Term} (h : t.IsIndividual) : t.Plain := by
  induction h with
  | @var a ha =>
    refine plain_atom (Bool.eq_false_iff.mpr fun ho => ?_)
    obtain ⟨o, ho⟩ := Option.isSome_iff_exists.mp ho
    exact Name.ne_operator_of_isVariable ha o (Operator.name_of_ofName? ho).symm
  | const ha => exact plain_atom ha.2
  | app hf _ ih =>
    refine plain_list fun x hx => ?_
    rcases List.mem_cons.mp hx with rfl | hx
    · exact plain_atom hf.2
    · exact ih x hx

theorem IsAtomicFormula.plain {t : Term} (h : t.IsAtomicFormula) : t.Plain := h.isIndividual.plain

theorem IsAtomicFormula.nonlogical {t : Term} (h : t.IsAtomicFormula) : t.Nonlogical := h.plain.nonlogical

variable {D : Type u} {M N : Interpretation D} {v w : Valuation D}

/-- the truth of an atomic formula, told by what its terms denote -/
theorem truth_iff_of_isAtomicFormula {t u : Term} (h : t.IsAtomicFormula)
    (hc : ∀ a, t = .atom a → u = .atom a)
    (happ : ∀ f args, t = .app f args → ∃ args', u = .app f args' ∧
      args'.map (fun x => N.denote w x) = args.map (fun x => M.denote v x))
    (hrel : N.relation = M.relation) : u.Truth N.holds w ↔ t.Truth M.holds v := by
  cases h with
  | @const a ha =>
    rw [hc a rfl, Truth, Truth, Interpretation.holds, Interpretation.holds, hrel]
    exact Iff.rfl
  | @app f args hf hargs =>
    obtain ⟨args', rfl, hmap⟩ := happ f args rfl
    rw [truth_app _ hf.2, truth_app _ hf.2, Interpretation.holds_app, Interpretation.holds_app, hrel,
      hmap]

/-! ## what decides the value of a term -/

theorem denote_congr {t : Term} (ht : t.IsIndividual) (h : ∀ a ∈ t.freeVariables, v a = w a) :
    M.denote v t = M.denote w t := by
  induction ht with
  | var ha =>
    rw [Interpretation.denote_variable _ _ ha, Interpretation.denote_variable _ _ ha]
    exact h _ (mem_freeVariables_atom.mpr ⟨ha, rfl⟩)
  | const ha =>
    rw [Interpretation.denote_constant _ _ ha.1, Interpretation.denote_constant _ _ ha.1]
  | app hf _ ih =>
    rw [Interpretation.denote_app, Interpretation.denote_app]
    congr 1
    refine List.map_congr_left fun x hx => ih x hx fun a ha => h a ?_
    exact (mem_freeVariables_app hf.not_quantifier hf.1).mpr ⟨x, hx, ha⟩

/-- the values of its variables decide whether an atomic formula holds -/
theorem local_isAtomicFormula (M : Interpretation D) : Local M.holds IsAtomicFormula := by
  intro t ht v w h
  refine (truth_iff_of_isAtomicFormula ht (fun a ha => ha) (fun f args he => ?_) rfl).symm
  subst he
  refine ⟨args, rfl, List.map_congr_left fun x hx => ?_⟩
  cases ht with
  | app hf hargs =>
    refine denote_congr (hargs x hx) fun a ha => (h a ?_).symm
    exact (mem_freeVariables_app hf.not_quantifier hf.1).mpr ⟨x, hx, ha⟩

/-- the symbols of a term decide what it denotes -/
theorem denote_congr_symbols {t : Term} (ht : t.IsIndividual)
    (h : ∀ f ∈ t.atoms, M.function f = N.function f) : M.denote v t = N.denote v t := by
  induction ht with
  | var ha =>
    rw [Interpretation.denote_variable _ _ ha, Interpretation.denote_variable _ _ ha]
  | @const a ha =>
    rw [Interpretation.denote_constant _ _ ha.1, Interpretation.denote_constant _ _ ha.1,
      h a (by simp)]
  | @app f args hf _ ih =>
    rw [Interpretation.denote_app, Interpretation.denote_app, h f (by simp [app])]
    congr 1
    refine List.map_congr_left fun x hx => ih x hx fun a ha => h a ?_
    rw [app, atoms_list]
    exact List.mem_flatMap.mpr ⟨x, List.mem_cons_of_mem _ hx, ha⟩

theorem mem_atoms_app {head : String} {args : List Term} {x : Term} {a : String} (hx : x ∈ args)
    (ha : a ∈ x.atoms) : a ∈ (app head args).atoms := by
  rw [app, atoms_list]
  exact List.mem_flatMap.mpr ⟨x, List.mem_cons_of_mem _ hx, ha⟩

/-- the symbols of a formula decide its truth -/
theorem truth_congr_symbols {f : Fragment} {t : Term} (ht : t.IsFormula IsAtomicFormula f)
    (hrel : N.relation = M.relation) (h : ∀ f ∈ t.atoms, M.function f = N.function f) :
    t.Truth M.holds v ↔ t.Truth N.holds v := by
  have hatomic : ∀ {t : Term} {v : Valuation D}, t.IsAtomicFormula →
      (∀ f ∈ t.atoms, M.function f = N.function f) → (t.Truth M.holds v ↔ t.Truth N.holds v) := by
    intro t v ht h
    refine (truth_iff_of_isAtomicFormula ht (fun a ha => ha) (fun f args he => ?_) hrel).symm
    subst he
    refine ⟨args, rfl, List.map_congr_left fun x hx => ?_⟩
    cases ht with
    | app hf hargs =>
      exact (denote_congr_symbols (hargs x hx) fun g hg => h g (mem_atoms_app hx hg)).symm
  induction ht generalizing v with
  | atomic hP => exact hatomic hP h
  | literal hP =>
    rw [truth_neg, truth_neg, hatomic hP fun g hg => h g (mem_atoms_app (by simp) hg)]
  | @conj args _ ih =>
    rw [truth_conj, truth_conj]
    exact forall₂_congr fun x hx => ih x hx fun g hg => h g (mem_atoms_app hx hg)
  | @disj args _ ih =>
    rw [truth_disj, truth_disj]
    exact exists_congr fun x => and_congr_right fun hx =>
      ih x hx fun g hg => h g (mem_atoms_app hx hg)
  | neg _ _ ih =>
    rw [truth_neg, truth_neg]
    exact not_congr (ih fun g hg => h g (mem_atoms_app (by simp) hg))
  | implies _ _ _ ihs iht =>
    rw [truth_implies, truth_implies]
    exact imp_congr (ihs fun g hg => h g (mem_atoms_app (by simp) hg))
      (iht fun g hg => h g (mem_atoms_app (by simp) hg))
  | iff _ _ _ ihs iht =>
    rw [truth_iff, truth_iff]
    exact iff_congr (ihs fun g hg => h g (mem_atoms_app (by simp) hg))
      (iht fun g hg => h g (mem_atoms_app (by simp) hg))
  | @quantified q names body _ _ _ ih =>
    exact truth_quantified_congr q fun w _ => ih fun g hg => h g (mem_atoms_app (by simp) hg)

/-- a formula without the symbols whose functions differ says the same -/
theorem truth_of_agreeOff {changed : String → Prop} (hMN : M.AgreeOff changed N) {f : Fragment}
    {t : Term} (ht : t.IsFormula IsAtomicFormula f) (h : ∀ g ∈ t.atoms, ¬ changed g) :
    t.Truth M.holds v ↔ t.Truth N.holds v :=
  truth_congr_symbols ht hMN.1 fun g hg => (hMN.2 g (h g hg)).symm

end Term

end OntologyPrep
