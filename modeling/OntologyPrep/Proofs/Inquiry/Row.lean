import OntologyPrep.Inquiry.Row
import OntologyPrep.Proofs.Inquiry.Basic
import OntologyPrep.Proofs.Row.Weight

/-!
# Rows by asking are those of the knowledge base

A row variable is written out to the same sequences, from the same names, whether the counts are asked for
or the knowledge base is at hand (`Inquiry.result_expandRows`, `Inquiry.result_expandRowsWithin`).
-/

namespace OntologyPrep.Inquiry

variable {kb : KnowledgeBase}

theorem result_rowRange (relations : List String) :
    (rowRange relations).result kb = .ofRelations kb relations := by
  simp only [rowRange, result_foldlM, result_bind, result_valence, result_pure,
    RowRange.ofRelations]

theorem result_expandRow (row : String) (t : Term) :
    resultState kb (expandRow row t) = t.expandRow kb row := by
  simp only [expandRow, resultState_bind, resultState_silent, resultState_lift, result_rowRange,
    resultState_pure, pure_bind, Term.expandRow]

theorem result_replacements (row : String) (t : Term) :
    resultState kb (replacements row t) = RowExpansion.replacements kb row t := by
  rw [replacements, apply_ite (resultState kb), result_expandRow, resultState_pure,
    RowExpansion.replacements]

theorem result_expandTerms (budget : Option Nat) (row : String) (ts : List Term)
    (e : RowExpansion) : resultState kb (expandTerms budget row ts e) =
      RowExpansion.expandTerms kb budget row ts e := by
  induction ts generalizing e with
  | nil => rfl
  | cons t ts ih =>
    funext s
    rw [expandTerms, resultState_bind, result_replacements, State.bind_apply,
      RowExpansion.expandTerms_step]
    generalize RowExpansion.putAll budget (RowExpansion.replacements kb row t s).1 e = p
    obtain ⟨e', full⟩ := p
    cases full with
    | true => exact congrFun (ih e') _
    | false => rfl

theorem result_expandPending (budget : Option Nat) (e : RowExpansion) (row : String) :
    resultState kb (expandPending budget e row) = RowExpansion.expandRow kb budget e row :=
  result_expandTerms budget row e.pending _

/-- the terms in which all row variables are written out, and the names drawn for them -/
theorem result_expandRows (budget : Option Nat) (t : Term) :
    resultState kb (expandRows budget t) = t.expandRows kb budget := by
  unfold expandRows Term.expandRows
  split
  · rfl
  · simp only [resultState_bind, resultState_foldlM, result_expandPending, resultState_pure]

theorem result_expandRowsWithin (f : Formula) (budget : Option Nat) :
    resultState kb (expandRowsWithin f budget) = f.expandRowsWithin kb budget := by
  unfold expandRowsWithin Formula.expandRowsWithin
  cases f.term with
  | none => rfl
  | some t => simp only [resultState_bind, result_expandRows, resultState_pure]

end OntologyPrep.Inquiry
