import OntologyPrep.Clause.Form
import OntologyPrep.Proofs.Normal.Shape

/-!
# Clauses keep the meaning

Moving disjunctions in does not change what a formula without quantifiers says
(`Term.truth_disjunctionsIn`), and a formula is true for some values exactly if each of its clauses is
(`Term.clauses_hold_iff`), whatever shape it has.
-/

namespace OntologyPrep

universe u

namespace Term

variable {D : Type u} {holds : Valuation D → Term → Prop} {P : Term → Prop} {v : Valuation D}

/-! ## merging -/

theorem forall_parts_and (x : Term) :
    (∀ y ∈ x.parts "and", y.Truth holds v) ↔ x.Truth holds v := by
  by_cases hx : ∃ args, x = .app "and" args
  · obtain ⟨args, rfl⟩ := hx
    rw [parts_app]
    exact (truth_conj args).symm
  · rw [parts_of_ne _ fun args he => hx ⟨args, he⟩]
    simp

theorem exists_parts_or (x : Term) :
    (∃ y ∈ x.parts "or", y.Truth holds v) ↔ x.Truth holds v := by
  by_cases hx : ∃ args, x = .app "or" args
  · obtain ⟨args, rfl⟩ := hx
    rw [parts_app]
    exact (truth_disj args).symm
  · rw [parts_of_ne _ fun args he => hx ⟨args, he⟩]
    simp

theorem truth_collapse_and (ts : List Term) :
    (collapse "and" ts).Truth holds v ↔ ∀ t ∈ ts, t.Truth holds v := by
  unfold collapse
  split
  · simp
  · exact truth_conj ts

theorem truth_collapse_or (ts : List Term) :
    (collapse "or" ts).Truth holds v ↔ ∃ t ∈ ts, t.Truth holds v := by
  unfold collapse
  split
  · simp
  · exact truth_disj ts

/-- merging nested conjunctions and disjunctions keeps what a formula says -/
theorem truth_flatten (hP : ∀ s, P s → s.Nonlogical) {t : Term} (h : t.IsFormula P .matrix)
    (v : Valuation D) : t.flatten.Truth holds v ↔ t.Truth holds v := by
  induction h with
  | atomic h => rw [(hP _ h).flatten]
  | literal h => rw [(hP _ h).flatten_neg]
  | @conj args _ ih =>
    rw [flatten_conj, truth_collapse_and, truth_conj]
    constructor
    · intro hall x hx
      rw [← ih x hx, ← forall_parts_and]
      exact fun y hy => hall y (List.mem_flatMap.mpr ⟨_, List.mem_map_of_mem hx, hy⟩)
    · intro hall y hy
      obtain ⟨x', hx', hy⟩ := List.mem_flatMap.mp hy
      obtain ⟨x, hx, rfl⟩ := List.mem_map.mp hx'
      exact (forall_parts_and x.flatten).mpr ((ih x hx).mpr (hall x hx)) y hy
  | @disj args _ ih =>
    rw [flatten_disj, truth_collapse_or, truth_disj]
    constructor
    · rintro ⟨y, hy, htrue⟩
      obtain ⟨x', hx', hy⟩ := List.mem_flatMap.mp hy
      obtain ⟨x, hx, rfl⟩ := List.mem_map.mp hx'
      exact ⟨x, hx, (ih x hx).mp ((exists_parts_or x.flatten).mp ⟨y, hy, htrue⟩)⟩
    · rintro ⟨x, hx, htrue⟩
      rw [← ih x hx, ← exists_parts_or] at htrue
      obtain ⟨y, hy, htrue⟩ := htrue
      exact ⟨y, List.mem_flatMap.mpr ⟨_, List.mem_map_of_mem hx, hy⟩, htrue⟩
  | neg hnested => exact hnested.elim
  | implies harrows => exact harrows.elim
  | iff harrows => exact harrows.elim
  | quantified hq => exact hq.elim

/-! ## distributing -/

/-- the first conjunction among some formulas is distributed over -/
theorem truth_distributeFrom {before xs : List Term} {t : Term}
    (h : distributeFrom before xs = some t) (v : Valuation D) :
    t.Truth holds v ↔ ∃ x ∈ before ++ xs, x.Truth holds v := by
  induction xs generalizing before with
  | nil => cases h
  | cons x after ih =>
    rw [distributeFrom] at h
    split at h
    · next cs hcs =>
      cases h
      obtain rfl := eq_conj_of_conjuncts? hcs
      have hsplit : ∀ c : Term, (∃ y ∈ before ++ c :: after, y.Truth holds v) ↔
          (∃ y ∈ before ++ after, y.Truth holds v) ∨ c.Truth holds v := by
        intro c
        constructor
        · rintro ⟨y, hy, htrue⟩
          rcases List.mem_append.mp hy with hy | hy
          · exact .inl ⟨y, by simp [hy], htrue⟩
          · rcases List.mem_cons.mp hy with rfl | hy
            · exact .inr htrue
            · exact .inl ⟨y, by simp [hy], htrue⟩
        · rintro (⟨y, hy, htrue⟩ | htrue)
          · rcases List.mem_append.mp hy with hy | hy
            · exact ⟨y, by simp [hy], htrue⟩
            · exact ⟨y, by simp [hy], htrue⟩
          · exact ⟨c, by simp, htrue⟩
      rw [truth_conj, List.forall_mem_map, hsplit, truth_conj]
      simp only [truth_disj, hsplit]
      by_cases hrest : ∃ y ∈ before ++ after, y.Truth holds v
      · exact iff_of_true (fun _ _ => .inl hrest) (.inl hrest)
      · simp only [hrest, false_or]
    · have := ih h
      simpa using this

/-- distributing keeps what a formula says -/
theorem truth_distribute (hP : ∀ s, P s → s.Nonlogical) {t : Term} (h : t.IsFormula P .matrix)
    (v : Valuation D) : t.distribute.Truth holds v ↔ t.Truth holds v := by
  induction h with
  | atomic h => rw [(hP _ h).distribute]
  | literal h => rw [neg, apply, distribute_app (by decide) (by decide)]
  | conj _ ih =>
    rw [distribute_conj, truth_conj, truth_conj, List.forall_mem_map]
    exact forall₂_congr fun x hx => ih x hx
  | @disj args _ ih =>
    have hdisj : (∃ x ∈ args.map distribute, x.Truth holds v) ↔ (Term.disj args).Truth holds v := by
      rw [truth_disj, exists_mem_map]
      exact exists_congr fun x => and_congr_right fun hx => ih x hx
    rw [distribute_disj, distributeParts]
    cases hd : distributeFrom [] (args.map distribute) with
    | none => exact (truth_disj _).trans hdisj
    | some u => exact (truth_distributeFrom hd v).trans hdisj
  | neg hnested => exact hnested.elim
  | implies harrows => exact harrows.elim
  | iff harrows => exact harrows.elim
  | quantified hq => exact hq.elim

/-- moving the disjunctions in keeps what a formula without quantifiers says -/
theorem truth_disjunctionsIn (hP : ∀ s, P s → s.Nonlogical) {t : Term} (h : t.IsFormula P .matrix)
    (v : Valuation D) : t.disjunctionsIn.Truth holds v ↔ t.Truth holds v := by
  have hrounds : ∀ u : Term, u.IsFormula P .matrix →
      (u.clauseRounds.Truth holds v ↔ u.Truth holds v) := by
    intro u hu
    induction u using clauseRounds.induct with
    | case1 u hfixed => rw [clauseRounds_of_eq hfixed]
    | case2 u hchanged ih =>
      have hd := isFormula_distribute hP hu
      rw [clauseRounds, if_neg hchanged, ih (isFormula_flatten hP hd), clauseRound,
        truth_flatten hP hd, truth_distribute hP hu]
  exact (hrounds _ (isFormula_flatten hP h)).trans (truth_flatten hP h v)

end Term

/-! ## clauses -/

namespace Clause

variable {D : Type u} {holds : Valuation D → Term → Prop} {v : Valuation D}

/-- one of the literals of the clause is true: a positive one, or the negation of a negative one -/
def Holds (holds : Valuation D → Term → Prop) (v : Valuation D) (c : Clause) : Prop :=
  (∃ t ∈ c.positive, t.Truth holds v) ∨ ∃ t ∈ c.negative, ¬ t.Truth holds v

theorem holds_add (c : Clause) (t : Term) :
    (c.add t).Holds holds v ↔ c.Holds holds v ∨ t.Truth holds v := by
  unfold add
  split
  · next s =>
    have : (Term.list [.atom "not", s]).Truth holds v ↔ ¬ s.Truth holds v := Term.truth_neg s
    rw [this]
    simp only [Holds, Distinct.mem_add, or_and_right, exists_or, exists_eq_left]
    exact or_assoc.symm
  · have hfalse : ¬ (Term.atom "False").Truth holds v := Term.not_truth_falsum
    simp only [Holds, Distinct.mem_add, or_and_right, exists_or, exists_eq_left, hfalse, or_false,
      Term.truth_verum, not_true_eq_false]
  · simp only [Holds, Distinct.mem_add, or_and_right, exists_or, exists_eq_left]
    exact or_right_comm

theorem holds_ofLiterals (ts : List Term) :
    (ofLiterals ts).Holds holds v ↔ ∃ t ∈ ts, t.Truth holds v := by
  have hfold : ∀ c : Clause, (ts.foldl add c).Holds holds v ↔
      c.Holds holds v ∨ ∃ t ∈ ts, t.Truth holds v := by
    induction ts with
    | nil => simp
    | cons t ts ih =>
      intro c
      rw [List.foldl_cons, ih, holds_add, or_assoc]
      simp
  rw [ofLiterals, hfold]
  simp [Holds, empty]

end Clause

namespace Term

variable {D : Type u} {holds : Valuation D → Term → Prop} {v : Valuation D}

/-- the parts that a formula is taken apart into are formulas -/
theorem IsFormula.operands {P : Term → Prop} {f : Fragment} (hP : ∀ s, P s → s.Nonlogical) {t : Term}
    (ht : t.IsFormula P f) {o : Operator} (ho : o = .conj ∨ o = .disj) :
    ∀ x ∈ t.operands o, x.IsFormula P f := by
  unfold Term.operands
  split
  · next h =>
    rw [eq_apply_of_operator? h] at ht
    exact fun x hx => ht.of_mem_args hP ho hx
  · exact List.forall_mem_singleton.mpr ht

theorem exists_operands_disj (t : Term) :
    (∃ x ∈ t.operands .disj, x.Truth holds v) ↔ t.Truth holds v := by
  unfold operands
  split
  · next h =>
    rw [eq_apply_of_operator? h]
    exact (truth_disj _).symm
  · simp

theorem forall_operands_conj (t : Term) :
    (∀ x ∈ t.operands .conj, x.Truth holds v) ↔ t.Truth holds v := by
  unfold operands
  split
  · next h =>
    rw [eq_apply_of_operator? h]
    exact (truth_conj _).symm
  · simp

/-- a formula is true exactly if all its clauses hold -/
theorem clauses_hold_iff (t : Term) :
    (∀ c ∈ t.clauses, c.Holds holds v) ↔ t.Truth holds v := by
  rw [← forall_operands_conj, clauses]
  split
  · next h =>
    rw [h]
    refine iff_of_true ?_ (by simp)
    intro c hc
    rw [List.mem_singleton.mp hc, Clause.holds_ofLiterals]
    exact ⟨.verum, by simp, truth_verum⟩
  · rw [List.forall_mem_map]
    refine forall₂_congr fun x _ => ?_
    rw [Clause.holds_ofLiterals, exists_operands_disj]

end Term

end OntologyPrep
