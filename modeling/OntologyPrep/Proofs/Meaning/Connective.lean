import Mathlib.Logic.Basic
import OntologyPrep.Proofs.Normal.Shape

/-!
# Arrows and negations keep the meaning

Taking arrows out and moving negations in do not change what a formula says:

* `Term.truth_arrowsOut`     the formula without arrows;
* `Term.truth_settle`        negations moved in once, for the formula and for its negation;
* `Term.truth_negationsIn`   the formula in negation normal form.
-/

namespace OntologyPrep

universe u

namespace Term

variable {D : Type u} {holds : Valuation D → Term → Prop} {P : Term → Prop} {f : Fragment}
  {v : Valuation D}

/-! ## arrows -/

/-- without its arrows a formula says the same -/
theorem truth_arrowsOut (hP : ∀ s, P s → s.Nonlogical) {t : Term} (h : t.IsFormula P f)
    (v : Valuation D) : t.arrowsOut.Truth holds v ↔ t.Truth holds v := by
  induction h generalizing v with
  | atomic h => rw [(hP _ h).arrowsOut]
  | literal h => rw [arrowsOut_neg, (hP _ h).arrowsOut]
  | conj _ ih =>
    rw [arrowsOut_conj, truth_conj, truth_conj, List.forall_mem_map]
    exact forall₂_congr fun x hx => ih x hx v
  | disj _ ih =>
    rw [arrowsOut_disj, truth_disj, truth_disj, exists_mem_map]
    exact exists_congr fun x => and_congr_right fun hx => ih x hx v
  | neg _ _ ih => rw [arrowsOut_neg, truth_neg, truth_neg, ih v]
  | @implies s t _ _ _ ihs iht =>
    have hs := ihs v
    have ht := iht v
    rw [arrowsOut_implies, truth_disj, truth_implies]
    simp only [List.mem_cons, List.not_mem_nil, or_false, exists_eq_or_imp, exists_eq_left,
      truth_neg]
    rw [hs, ht]
    exact imp_iff_not_or.symm
  | @iff s t _ _ _ ihs iht =>
    have hs := ihs v
    have ht := iht v
    rw [arrowsOut_iff, truth_conj, truth_iff]
    simp only [List.mem_cons, List.not_mem_nil, or_false, forall_eq_or_imp, forall_eq,
      truth_disj, exists_eq_or_imp, exists_eq_left, truth_neg]
    rw [hs, ht, ← imp_iff_not_or, ← imp_iff_not_or]
    exact iff_iff_implies_and_implies.symm
  | @quantified q names body _ hnames _ ih =>
    rw [arrowsOut_quantified q hnames]
    exact truth_quantified_congr q fun w _ => ih w

/-! ## negations -/

/-- a negated nonlogical term settles to a literal that is true exactly if the term is not -/
theorem truth_settle_false_of_nonlogical {t : Term} (h : t.Nonlogical) :
    (t.settle false).Truth holds v ↔ ¬ t.Truth holds v := by
  match t with
  | .atom a =>
    rw [settle, if_neg (by decide)]
    split
    · next he =>
      subst he
      exact iff_of_false not_truth_falsum (not_not_intro truth_verum)
    · split
      · next he =>
        subst he
        exact iff_of_true truth_verum not_truth_falsum
      · exact truth_neg _
  | .list xs =>
    rw [h.settle_false]
    exact truth_neg _

/-- a formula settles to one that says the same, and its negation to one that says the opposite -/
theorem truth_settle (hP : ∀ s, P s → s.Nonlogical) {t : Term} (h : t.IsFormula P .arrowFree) :
    (∀ v : Valuation D, (t.settle true).Truth holds v ↔ t.Truth holds v) ∧
      ∀ v : Valuation D, (t.settle false).Truth holds v ↔ ¬ t.Truth holds v := by
  induction h with
  | atomic h =>
    rw [(hP _ h).settle]
    exact ⟨fun v => Iff.rfl, fun v => truth_settle_false_of_nonlogical (hP _ h)⟩
  | literal h =>
    rw [settle_neg, settle_neg, Bool.not_true, Bool.not_false, (hP _ h).settle]
    refine ⟨fun v => ?_, fun v => ?_⟩
    · rw [truth_settle_false_of_nonlogical (hP _ h), truth_neg]
    · rw [truth_neg, Classical.not_not]
  | @conj args _ ih =>
    rw [(settle_conj args).1, (settle_conj args).2]
    refine ⟨fun v => ?_, fun v => ?_⟩
    · rw [truth_conj, truth_conj, List.forall_mem_map]
      exact forall₂_congr fun x hx => (ih x hx).1 v
    · rw [truth_disj, truth_conj, exists_mem_map]
      simp only [Classical.not_forall, exists_prop]
      exact exists_congr fun x => and_congr_right fun hx => (ih x hx).2 v
  | @disj args _ ih =>
    rw [(settle_disj args).1, (settle_disj args).2]
    refine ⟨fun v => ?_, fun v => ?_⟩
    · rw [truth_disj, truth_disj, exists_mem_map]
      exact exists_congr fun x => and_congr_right fun hx => (ih x hx).1 v
    · rw [truth_conj, truth_disj, List.forall_mem_map]
      simp only [not_exists, not_and]
      exact forall₂_congr fun x hx => (ih x hx).2 v
  | neg _ _ ih =>
    rw [settle_neg, settle_neg, Bool.not_true, Bool.not_false]
    refine ⟨fun v => ?_, fun v => ?_⟩
    · rw [ih.2, truth_neg]
    · rw [ih.1, truth_neg, Classical.not_not]
  | implies harrows => exact harrows.elim
  | iff harrows => exact harrows.elim
  | @quantified q names body _ hnames _ ih =>
    obtain ⟨htrue, hfalse⟩ := settle_quantified q hnames body
    rw [htrue, hfalse]
    refine ⟨fun v => ?_, fun v => ?_⟩
    · exact truth_quantified_congr q fun w _ => ih.1 w
    · exact truth_quantified_dual q fun w _ => ih.2 w

/-- moving the negations in gives a formula that says the same -/
theorem truth_negationsIn (hP : ∀ s, P s → s.Nonlogical) (hverum : P verum) (hfalsum : P falsum)
    {t : Term} (h : t.IsFormula P .arrowFree) (v : Valuation D) :
    t.negationsIn.Truth holds v ↔ t.Truth holds v := by
  induction t using negationsIn.induct with
  | case1 t hfixed => rw [negationsIn_of_eq hfixed]
  | case2 t hchanged ih =>
    have hform := isFormula_settle hP hverum hfalsum h true
    rw [negationsIn, if_neg hchanged, ih (hform.mono Fragment.normal_within_arrowFree)]
    exact (truth_settle hP h).1 v

end Term

end OntologyPrep
