import Mathlib.Logic.Function.Iterate
import OntologyPrep.Proofs.Meaning.Connective
import OntologyPrep.Proofs.Meaning.Disjunction
import OntologyPrep.Proofs.Normal.Clausal

/-!
# The two repetitions end in normal forms

Negations are moved in, and disjunctions are, by rounds that are repeated until one changes nothing.

* `Term.negationsIn_normal`      the first repetition ends on every term, and turns a formula without
                                 arrows into one in negation normal form that says the same;
* `Term.disjunctionsIn_normal`   the second one ends on every term and is idempotent, and turns a formula
                                 built from literals into a conjunction of disjunctions of literals that
                                 says the same.

In both cases the shape is read off the last term, which a round leaves as it is.
-/

namespace OntologyPrep

universe u

namespace Term

variable {P : Term → Prop}

/-! ## negation normal form -/

/-- a formula without arrows whose negations are directly around atomic formulas other than truth and
falsity -/
inductive IsNegationNormal (P : Term → Prop) : Term → Prop where
  | atomic {t : Term} : P t → IsNegationNormal P t
  | negated {t : Term} : P t → t ≠ .verum → t ≠ .falsum → IsNegationNormal P t.neg
  | conj {args : List Term} : (∀ x ∈ args, IsNegationNormal P x) → IsNegationNormal P (.conj args)
  | disj {args : List Term} : (∀ x ∈ args, IsNegationNormal P x) → IsNegationNormal P (.disj args)
  | quantified {q : Quantifier} {names : List String} {body : Term} :
    (∀ n ∈ names, Name.isVariable n = true) → IsNegationNormal P body →
    IsNegationNormal P (.quantified q.name names body)

theorem settle_false_verum : verum.settle false = .falsum := by simp [verum, settle]

theorem settle_false_falsum : falsum.settle false = .verum := by
  rw [falsum, settle, if_neg (by decide), if_neg (by decide), if_pos rfl]

/-- a negation that a round leaves as it is is not one of truth or falsity -/
theorem ne_truth_of_pushNegations_neg {t : Term} (h : t.neg.pushNegations = t.neg) :
    t ≠ .verum ∧ t ≠ .falsum := by
  rw [pushNegations, settle_neg, Bool.not_true] at h
  constructor
  · rintro rfl
    rw [settle_false_verum] at h
    cases h
  · rintro rfl
    rw [settle_false_falsum] at h
    cases h

/-- a formula with negations of atomic formulas only that a round leaves as it is -/
theorem isNegationNormal_of_fixed {t : Term} (ht : t.IsFormula P .normal)
    (h : t.pushNegations = t) : t.IsNegationNormal P := by
  induction ht with
  | atomic hP => exact .atomic hP
  | literal hP =>
    obtain ⟨hverum, hfalsum⟩ := ne_truth_of_pushNegations_neg h
    exact .negated hP hverum hfalsum
  | @conj args _ ih =>
    rw [pushNegations, (settle_conj args).1] at h
    have hargs : args.map (settle true) = args := (List.cons.inj (Term.list.inj h)).2
    exact .conj fun x hx => ih x hx (forall_of_map_eq_self hargs x hx)
  | @disj args _ ih =>
    rw [pushNegations, (settle_disj args).1] at h
    have hargs : args.map (settle true) = args := (List.cons.inj (Term.list.inj h)).2
    exact .disj fun x hx => ih x hx (forall_of_map_eq_self hargs x hx)
  | neg hnested => exact hnested.elim
  | implies harrows => exact harrows.elim
  | iff harrows => exact harrows.elim
  | @quantified q names body _ hnames _ ih =>
    rw [pushNegations, (settle_quantified q hnames body).1] at h
    have hparts := (List.cons.inj (List.cons.inj (Term.list.inj h)).2).2
    exact .quantified hnames (ih (List.cons.inj hparts).1)

/-- the result is the term after some rounds, no more than the term weighs -/
theorem exists_iterate_pushNegations (t : Term) :
    ∃ n ≤ t.negationWeight, pushNegations^[n] t = t.negationsIn := by
  induction t using negationsIn.induct with
  | case1 t hfixed => exact ⟨0, Nat.zero_le _, (negationsIn_of_eq hfixed).symm⟩
  | case2 t hchanged ih =>
    obtain ⟨n, hn, hiter⟩ := ih
    have hlt := weight_pushNegations_lt hchanged
    refine ⟨n + 1, by omega, ?_⟩
    rw [Function.iterate_succ_apply, hiter]
    conv_rhs => rw [negationsIn, if_neg hchanged]

/-- rounds of moving negations in lead every term to one that they leave as it is, and a formula without
arrows over atomic formulas without operators to its negation normal form, which says the same for every
kind of interpretation and all values -/
theorem negationsIn_normal (t : Term) :
    (∃ n ≤ t.negationWeight, pushNegations^[n] t = t.negationsIn) ∧
      t.negationsIn.pushNegations = t.negationsIn ∧
      (t.IsFormula Plain .arrowFree → t.negationsIn.IsNegationNormal Plain ∧
        ∀ (D : Type u) (holds : Valuation D → Term → Prop) (v : Valuation D),
          t.negationsIn.Truth holds v ↔ t.Truth holds v) := by
  have hP : ∀ s : Term, s.Plain → s.Nonlogical := fun _ h => h.nonlogical
  refine ⟨exists_iterate_pushNegations t, pushNegations_negationsIn t, fun ht => ⟨?_, ?_⟩⟩
  · exact isNegationNormal_of_fixed (isFormula_negationsIn hP plain_verum plain_falsum ht)
      (pushNegations_negationsIn t)
  · exact fun D holds v => truth_negationsIn hP plain_verum plain_falsum ht v

/-- negations of each connective and of truth, one inside the other -/
def negatedThroughout : Term :=
  .neg (.conj [.neg (.disj [.app "p" [.atom "?X"], .neg (.atom trueName)]),
    .neg (.quantified Quantifier.all.name ["?X"] (.neg (.neg (.app "q" [.atom "?X"]))))])

theorem isFormula_negatedThroughout : negatedThroughout.IsFormula Plain .arrowFree := by
  have happ : ∀ head : String, Name.isOperator head = false → (app head [.atom "?X"]).Plain :=
    fun head h => plain_list (List.forall_mem_cons.mpr ⟨plain_atom h,
      List.forall_mem_singleton.mpr (plain_atom (by decide))⟩)
  refine .neg trivial (.conj (List.forall_mem_cons.mpr ⟨.neg trivial (.disj ?_),
    List.forall_mem_singleton.mpr (.neg trivial (.quantified trivial (by decide) ?_))⟩))
  · exact List.forall_mem_cons.mpr ⟨.atomic (happ "p" (by decide)),
      List.forall_mem_singleton.mpr (.neg trivial (.atomic plain_verum))⟩
  · exact .neg trivial (.neg trivial (.atomic (happ "q" (by decide))))

theorem negationsIn_normal_negatedThroughout : negatedThroughout.IsFormula Plain .arrowFree ∧
    negatedThroughout.negationsIn.IsNegationNormal Plain ∧
      ∀ (D : Type) (holds : Valuation D → Term → Prop) (v : Valuation D),
        negatedThroughout.negationsIn.Truth holds v ↔ negatedThroughout.Truth holds v :=
  ⟨isFormula_negatedThroughout,
    (negationsIn_normal negatedThroughout).2.2 isFormula_negatedThroughout⟩

/-! ## conjunctions of disjunctions -/

/-- the rounds that follow on a term lead to its result -/
theorem exists_iterate_clauseRound (t : Term) : ∃ n, clauseRound^[n] t = t.clauseRounds := by
  induction t using clauseRounds.induct with
  | case1 t hfixed => exact ⟨0, (clauseRounds_of_eq hfixed).symm⟩
  | case2 t hchanged ih =>
    obtain ⟨n, hiter⟩ := ih
    refine ⟨n + 1, ?_⟩
    rw [Function.iterate_succ_apply, hiter]
    conv_rhs => rw [clauseRounds, if_neg hchanged]

/-- what a round leaves as it is has its disjunctions moved in -/
theorem disjunctionsIn_of_clauseRound {t : Term} (h : t.clauseRound = t) : t.disjunctionsIn = t := by
  rw [disjunctionsIn, (fixed_of_clauseRound h).2, clauseRounds_of_eq h]

/-- rounds of distributing and merging lead every merged term to one that they leave as it is, moving
disjunctions in once more changes nothing, and a formula of conjunctions and disjunctions of literals
becomes a conjunction of disjunctions of literals, which says the same for every kind of interpretation
and all values -/
theorem disjunctionsIn_normal (t : Term) :
    (∃ n, clauseRound^[n] t.flatten = t.disjunctionsIn) ∧
      t.disjunctionsIn.clauseRound = t.disjunctionsIn ∧
      t.disjunctionsIn.disjunctionsIn = t.disjunctionsIn ∧
      (t.IsFormula Plain .matrix → t.disjunctionsIn.IsClausal Plain ∧
        ∀ (D : Type u) (holds : Valuation D → Term → Prop) (v : Valuation D),
          t.disjunctionsIn.Truth holds v ↔ t.Truth holds v) := by
  have hP : ∀ s : Term, s.Plain → s.Nonlogical := fun _ h => h.nonlogical
  have hfixed := clauseRound_disjunctionsIn t
  refine ⟨exists_iterate_clauseRound t.flatten, hfixed, disjunctionsIn_of_clauseRound hfixed,
    fun ht => ⟨isClausal_disjunctionsIn hP ht, ?_⟩⟩
  exact fun D holds v => truth_disjunctionsIn hP ht v

/-- a conjunction inside a disjunction, beside connectives without parts and with one -/
def nestedConnectives : Term :=
  .disj [.conj [.atom "p", .conj [.neg (.atom "q")]], .conj [], .disj [.atom "r", .disj []]]

theorem isFormula_nestedConnectives : nestedConnectives.IsFormula Plain .matrix := by
  have hatom : ∀ a : String, Name.isOperator a = false → (atom a).Plain := fun _ h => plain_atom h
  refine .disj ?_
  rw [List.forall_mem_cons, List.forall_mem_cons, List.forall_mem_singleton]
  refine ⟨.conj ?_, .conj fun x hx => absurd hx List.not_mem_nil, .disj ?_⟩
  · exact List.forall_mem_cons.mpr ⟨.atomic (hatom "p" (by decide)), List.forall_mem_singleton.mpr
      (.conj (List.forall_mem_singleton.mpr (.literal (hatom "q" (by decide)))))⟩
  · exact List.forall_mem_cons.mpr ⟨.atomic (hatom "r" (by decide)), List.forall_mem_singleton.mpr
      (.disj fun x hx => absurd hx List.not_mem_nil)⟩

theorem disjunctionsIn_normal_nestedConnectives : nestedConnectives.IsFormula Plain .matrix ∧
    nestedConnectives.disjunctionsIn.IsClausal Plain ∧
      ∀ (D : Type) (holds : Valuation D → Term → Prop) (v : Valuation D),
        nestedConnectives.disjunctionsIn.Truth holds v ↔ nestedConnectives.Truth holds v :=
  ⟨isFormula_nestedConnectives,
    (disjunctionsIn_normal nestedConnectives).2.2.2 isFormula_nestedConnectives⟩

end Term

end OntologyPrep
