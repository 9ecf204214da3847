import Mathlib.Data.List.Permutation
import OntologyPrep.Proofs.Meaning.Choice
import OntologyPrep.Proofs.Meaning.Connective
import OntologyPrep.Proofs.Meaning.Disjunction
import OntologyPrep.Proofs.Meaning.Renaming
import OntologyPrep.Proofs.Meaning.Universal
import OntologyPrep.Proofs.Normal.Vocabulary

/-!
# Clausal forms keep satisfiability

* `ClausalForm.supply_ofTerm`     the number of names that a run draws (`ClausalForm.draws`);
* `ClausalForm.equisatisfiable`   the clauses of a formula imply it, and where it is true they are for
                                  some functions in place of those of the new Skolem symbols.

Every step but two keeps what a formula says for all values.  Dropping universal quantifiers keeps it
only because no name is bound twice after the renaming, and Skolemising changes the interpretation.
-/

namespace OntologyPrep

universe u

namespace Term

/-- operators and truth values are no Skolem symbols -/
theorem Over.of_isSkolem {names : String → Prop} {t : Term} (h : t.Over names) {a : String}
    (ha : a ∈ t.atoms) (hskolem : Name.isSkolem a = true) : names a := by
  rcases h a ha with hnames | hop | rfl | rfl
  · exact hnames
  · exact absurd ((Name.isConstant_of_isSkolem hskolem).2.symm.trans hop) (by decide)
  · exact absurd hskolem (by decide)
  · exact absurd hskolem (by decide)

/-! ## the variables of each conjunct renamed -/

theorem supply_renameApart (t : Term) (links : RenameMap) (s : Supply) :
    (t.renameApart links s).2 = s.after t.renamingDraws := by
  obtain ⟨names, _, hspec⟩ := renameApart_spec t links s
  rw [hspec.drawn.eq_after, hspec.length]

theorem supply_renameEach (ts : List Term) (links : RenameMap) (s : Supply) :
    (renameEach ts links s).2 = s.after (total (ts.map renamingDraws)) := by
  induction ts generalizing links s with
  | nil => exact s.after_zero.symm
  | cons t ts ih =>
    show (renameEach ts (t.renameApart links s).1.2 (t.renameApart links s).2).2 = _
    rw [ih, supply_renameApart, Supply.after_after, List.map_cons, total_cons]

theorem supply_standardizeApart (t : Term) (links : RenameMap) (s : Supply) :
    (t.standardizeApart links s).2 = s.after (total ((t.operands .conj).map renamingDraws)) := by
  unfold standardizeApart operands
  split
  · exact supply_renameEach t.args links s
  · exact supply_renameApart t links s

variable {D : Type u} {f : Fragment}

theorem renameEach_keeps {ts : List Term} (hts : ∀ t ∈ ts, t.IsFormula IsAtomicFormula f)
    (links : RenameMap) {s : Supply} (hdraws : total (ts.map renamingDraws) < 2 ^ 32) :
    (∀ t ∈ (renameEach ts links s).1.1, t.IsFormula IsAtomicFormula f) ∧
      ∀ M : Interpretation D, (∀ t ∈ (renameEach ts links s).1.1, M.Models t) ↔
        ∀ t ∈ ts, M.Models t := by
  induction ts generalizing links s with
  | nil => exact ⟨fun t ht => absurd ht List.not_mem_nil, fun M => Iff.rfl⟩
  | cons t ts ih =>
    rw [List.map_cons, total_cons] at hdraws
    obtain ⟨hform, _, hmodels⟩ := renameApart_keeps (D := D) (hts t (by simp)) links (s := s)
      (by omega)
    obtain ⟨hforms, hall⟩ := ih (fun u hu => hts u (List.mem_cons_of_mem _ hu))
      (t.renameApart links s).1.2 (s := (t.renameApart links s).2) (by omega)
    refine ⟨List.forall_mem_cons.mpr ⟨hform, hforms⟩, fun M => ?_⟩
    rw [List.forall_mem_cons, ← hmodels M, ← hall M]
    exact List.forall_mem_cons

theorem models_conj (M : Interpretation D) (args : List Term) :
    M.Models (conj args) ↔ ∀ x ∈ args, M.Models x := by
  simp only [Interpretation.Models, truth_conj]
  exact ⟨fun h x hx v => h v x hx, fun h v x hx => h x hx v⟩

/-- a formula whose conjuncts have variables of their own says the same, read for all values -/
theorem standardizeApart_keeps {t : Term} (ht : t.IsFormula IsAtomicFormula f) (links : RenameMap)
    {s : Supply} (hdraws : total ((t.operands .conj).map renamingDraws) < 2 ^ 32) :
    (t.standardizeApart links s).1.1.IsFormula IsAtomicFormula f ∧
      ∀ M : Interpretation D, M.Models (t.standardizeApart links s).1.1 ↔ M.Models t := by
  by_cases hconj : t.operator? = some .conj
  · have he : t = .conj t.args := eq_apply_of_operator? hconj
    have hargs : ∀ x ∈ t.args, x.IsFormula IsAtomicFormula f := fun x hx => by
      rw [he] at ht
      exact ht.of_mem_args (fun _ => IsAtomicFormula.nonlogical) (o := .conj) (.inl rfl) hx
    rw [operands, if_pos hconj] at hdraws
    obtain ⟨hforms, hmodels⟩ := renameEach_keeps (D := D) hargs links (s := s) hdraws
    have hrun : (t.standardizeApart links s).1.1 = .conj (renameEach t.args links s).1.1 := by
      rw [standardizeApart, if_pos hconj]
      rfl
    rw [hrun]
    refine ⟨.conj hforms, fun M => ?_⟩
    rw [models_conj, hmodels, ← models_conj, ← he]
  · rw [operands, if_neg hconj, List.map_singleton, total_cons, total_nil, Nat.add_zero] at hdraws
    rw [standardizeApart, if_neg hconj]
    obtain ⟨hform, _, hmodels⟩ := renameApart_keeps (D := D) ht links (s := s) hdraws
    exact ⟨hform, hmodels⟩

end Term

namespace ClausalForm

/-! ## the steps of a run -/

/-- the formula in negation normal form -/
def normal (t : Term) : Term := t.arrowsOut.negationsIn

/-- the normal form with all variables renamed -/
def renamed (t : Term) (s : Supply) : (Term × RenameMap) × Supply :=
  (normal t).renameApart .empty s

/-- the renamed formula with Skolem terms -/
def skolemized (t : Term) (s : Supply) : Term × Supply :=
  (renamed t s).1.1.existentialsOut (renamed t s).2

/-- the conjunction of disjunctions before its conjuncts get variables of their own -/
def matrix (t : Term) (s : Supply) : Term := (skolemized t s).1.universalsOut.disjunctionsIn

theorem ofTerm_eq (t : Term) (s : Supply) : ofTerm t s =
    (⟨((matrix t s).standardizeApart (renamed t s).1.2 (skolemized t s).2).1.1,
        ((matrix t s).standardizeApart (renamed t s).1.2 (skolemized t s).2).1.2⟩,
      ((matrix t s).standardizeApart (renamed t s).1.2 (skolemized t s).2).2) := rfl

/-- the number of names that a run takes: for the variables of the normal form, for its existential
names, and for the variables of the conjuncts -/
def draws (t : Term) (s : Supply) : Nat :=
  (normal t).renamingDraws + (renamed t s).1.1.existentials.length +
    total (((matrix t s).operands .conj).map Term.renamingDraws)

section

variable {P : Term → Prop} (hP : ∀ u, P u → u.Nonlogical) (hverum : P .verum) (hfalsum : P .falsum)
  {t : Term} (ht : t.IsFormula P .full)

include hP hverum hfalsum ht

theorem isFormula_normal : (normal t).IsFormula P .normal :=
  Term.isFormula_negationsIn hP hverum hfalsum (Term.isFormula_arrowsOut hP ht)

theorem isFormula_renamed
    (hren : ∀ {ρ : String → String} {u u' : Term}, P u → Term.Renames ρ u u' → P u') (s : Supply) :
    (renamed t s).1.1.IsFormula P .normal := by
  obtain ⟨_, _, hspec⟩ := Term.renameApart_spec (normal t) .empty s
  exact hspec.renames.isFormula hren (isFormula_normal hP hverum hfalsum ht)

end

theorem isAtomicFormula_verum : Term.verum.IsAtomicFormula := .const ⟨by decide, by decide⟩

theorem isAtomicFormula_falsum : Term.falsum.IsAtomicFormula := .const ⟨by decide, by decide⟩

variable {D : Type u} {t : Term} {s : Supply}

theorem normal_keeps (ht : t.IsFormula Term.IsAtomicFormula .full) :
    (normal t).IsFormula Term.IsAtomicFormula .normal ∧
      ∀ M : Interpretation D, M.Models (normal t) ↔ M.Models t := by
  have hnonlogical : ∀ s : Term, s.IsAtomicFormula → s.Nonlogical := fun _ => Term.IsAtomicFormula.nonlogical
  refine ⟨isFormula_normal hnonlogical isAtomicFormula_verum isAtomicFormula_falsum ht, fun M => ?_⟩
  refine forall_congr' fun v => ?_
  exact (Term.truth_negationsIn hnonlogical isAtomicFormula_verum isAtomicFormula_falsum
    (Term.isFormula_arrowsOut hnonlogical ht) v).trans (Term.truth_arrowsOut hnonlogical ht v)

theorem over_renamed (t : Term) (s : Supply) :
    (renamed t s).1.1.Over fun a => Name.isVariable a = true ∨ a ∈ t.atoms := by
  refine Term.over_renameApart (fun a ha => .inl ha) ?_ _ _
  exact Term.over_negationsIn (Term.over_implicationsOut (Term.over_equivalencesOut
    fun a ha => .inl (.inr ha)))

/-- a formula without Skolem symbols has none when its existential formulas are replaced -/
theorem isSkolem_renamed (hskolem : t.containsSkolem = false) :
    ∀ f ∈ (renamed t s).1.1.atoms, Name.isSkolem f = false := by
  intro f hf
  refine Bool.eq_false_iff.mpr fun hsk => ?_
  rcases (over_renamed t s).of_isSkolem hf hsk with hv | hf
  · exact absurd ((Name.isConstant_of_isSkolem hsk).1.symm.trans hv) (by decide)
  · exact List.any_eq_false.mp hskolem f hf hsk

/-- the clausal form's own Skolem symbols -/
def NewSymbol (form : ClausalForm) (f : String) : Prop :=
  Name.isSkolem f = true ∧ f ∈ form.term.atoms

theorem over_ofTerm (ht : t.IsFormula Term.IsAtomicFormula .full) :
    (ofTerm t s).1.term.Over fun a =>
      Name.isVariable a = true ∨ Name.isSkolem a = true ∨ a ∈ t.atoms := by
  refine Term.over_standardizeApart (fun a ha => .inl ha) (Term.over_disjunctionsIn
    (Term.over_universalsOut fun a ha => ?_)) _ _
  have hrenamed := isFormula_renamed (fun _ => Term.IsAtomicFormula.nonlogical) isAtomicFormula_verum
    isAtomicFormula_falsum ht (fun ha h => h.isAtomicFormula ha) s
  rcases Term.mem_atoms_existentialsOut hrenamed ha with ha | ha | ha
  · exact (over_renamed t s a ha).imp_left (Or.imp_right .inr)
  · exact .inl (.inr (.inl ha))
  · exact .inl (.inl ha)

end ClausalForm

open Classical in
/-- the functions of the second interpretation for some symbols, and all else of the first -/
noncomputable def Interpretation.changedTo {D : Type u} (M : Interpretation D)
    (changed : String → Prop) (N : Interpretation D) : Interpretation D :=
  { M with function := fun f => if changed f then N.function f else M.function f }

theorem Interpretation.agreeOff_changedTo {D : Type u} (M : Interpretation D)
    (changed : String → Prop) (N : Interpretation D) : M.AgreeOff changed (M.changedTo changed N) :=
  ⟨rfl, fun _ hf => if_neg hf⟩

/-- every clause is true for all values of its variables -/
def Interpretation.Satisfies {D : Type u} (M : Interpretation D) (form : ClausalForm) : Prop :=
  ∀ c ∈ form.clauses, ∀ v, c.Holds M.holds v

theorem Interpretation.satisfies_iff {D : Type u} (M : Interpretation D) (form : ClausalForm) :
    M.Satisfies form ↔ M.Models form.term := by
  simp only [Models, ← Term.clauses_hold_iff]
  exact ⟨fun h v c hc => h c hc v, fun h c hc v => h v c hc⟩

namespace ClausalForm

variable {D : Type u} {t : Term} {s : Supply}

/-- the steps after Skolemising keep what a formula says for all values -/
theorem term_keeps (hform : (skolemized t s).1.IsFormula Term.IsAtomicFormula .universal)
    (hapart : (skolemized t s).1.Apart)
    (hdraws : total (((matrix t s).operands .conj).map Term.renamingDraws) < 2 ^ 32) :
    (ofTerm t s).1.term.IsFormula Term.IsAtomicFormula .matrix ∧
      ∀ M : Interpretation D, M.Models (ofTerm t s).1.term ↔ M.Models (skolemized t s).1 := by
  have hnonlogical : ∀ s : Term, s.IsAtomicFormula → s.Nonlogical := fun _ => Term.IsAtomicFormula.nonlogical
  have hdropped := Term.isFormula_universalsOut hnonlogical hform
  have hmatrix : (matrix t s).IsFormula Term.IsAtomicFormula .matrix :=
    Term.isFormula_disjunctionsIn hnonlogical hdropped
  obtain ⟨hterm, hmodels⟩ := Term.standardizeApart_keeps (D := D) hmatrix (renamed t s).1.2
    (s := (skolemized t s).2) hdraws
  refine ⟨hterm, fun M => (hmodels M).trans ?_⟩
  rw [← Term.models_universalsOut hform hapart]
  exact forall_congr' fun v => Term.truth_disjunctionsIn hnonlogical hdropped v

/-- the number of names that a run takes says what supply it leaves -/
theorem supply_ofTerm (t : Term) (s : Supply) : (ofTerm t s).2 = s.after (draws t s) := by
  obtain ⟨_, _, hspec⟩ := Term.renameApart_spec (normal t) .empty s
  have hskolem : (skolemized t s).2 =
      (renamed t s).2.after (renamed t s).1.1.existentials.length :=
    Term.supply_skolemize _ hspec.renames.isVariable_of_mem_bound _
  rw [ofTerm_eq, Term.supply_standardizeApart, hskolem, renamed, Term.supply_renameApart,
    Supply.after_after, Supply.after_after, ← Nat.add_assoc]
  rfl

/-- the names in the clauses of a formula are its own, variables, or new Skolem symbols; the clauses
imply the formula; and where it is true they are for some functions in place of those of the new Skolem
symbols -/
theorem equisatisfiable (t : Term) (ht : t.IsFormula Term.IsAtomicFormula .full)
    (hskolem : t.containsSkolem = false) (s : Supply)
    (hdraws : s.counter.toNat + draws t s < 2 ^ 32) :
    (∀ c ∈ (ofTerm t s).1.clauses, ∀ x ∈ c.literals, x.Over fun a =>
        Name.isVariable a = true ∨ (ofTerm t s).1.NewSymbol a ∨ a ∈ t.atoms) ∧
      ∀ (D : Type u) [Nonempty D] (M : Interpretation D),
        (M.Satisfies (ofTerm t s).1 → M.Models t) ∧
          (M.Models t → ∃ N, M.AgreeOff (ofTerm t s).1.NewSymbol N ∧ N.Satisfies (ofTerm t s).1) := by
  have hnew : (ofTerm t s).1.term.Over fun a =>
      Name.isVariable a = true ∨ (ofTerm t s).1.NewSymbol a ∨ a ∈ t.atoms := fun a ha =>
    (over_ofTerm ht a ha).imp_left (Or.imp_right (Or.imp_left fun hsk => ⟨hsk, ha⟩))
  refine ⟨Term.over_clauses hnew, fun D _ M => ?_⟩
  rw [draws] at hdraws
  obtain ⟨hnormal, hmodelsnormal⟩ := normal_keeps (D := D) ht
  obtain ⟨hrenamed, hapart, hmodelsrenamed⟩ :=
    Term.renameApart_keeps (D := D) hnormal .empty (s := s) (by omega)
  obtain ⟨hform, hapart, hsound, hcomplete⟩ := Term.existentialsOut_keeps (D := D) hrenamed hapart
    (isSkolem_renamed hskolem) (s := (renamed t s).2)
    (by
      show (renamed t s).1.1.existentials.length < 2 ^ 32
      omega)
  obtain ⟨hterm, hmodels⟩ := term_keeps (D := D) (t := t) (s := s) hform hapart (by omega)
  have hback : ∀ N : Interpretation D, N.Satisfies (ofTerm t s).1 ↔ N.Models (skolemized t s).1 :=
    fun N => (N.satisfies_iff _).trans (hmodels N)
  have hforth : M.Models t ↔ M.Models (renamed t s).1.1 :=
    ((hmodelsrenamed M).trans (hmodelsnormal M)).symm
  constructor
  · intro hsat
    exact hforth.mpr (hsound M ((hback M).mp hsat))
  · intro htrue
    obtain ⟨N, hN, hmodelsN⟩ := hcomplete M inferInstance (hforth.mp htrue)
    -- the functions of symbols that the form does not have need no change
    have hsame : ∀ f ∈ (ofTerm t s).1.term.atoms,
        N.function f = (M.changedTo (ofTerm t s).1.NewSymbol N).function f := by
      intro f hf
      by_cases hf' : (ofTerm t s).1.NewSymbol f
      · exact (if_pos hf').symm
      · rw [(M.agreeOff_changedTo _ N).2 f hf']
        exact hN.2 f fun hsk => hf' ⟨hsk, hf⟩
    have hrel : (M.changedTo (ofTerm t s).1.NewSymbol N).relation = N.relation := hN.1.symm
    refine ⟨_, M.agreeOff_changedTo _ N, (Interpretation.satisfies_iff _ _).mpr fun v => ?_⟩
    exact (Term.truth_congr_symbols hterm hrel hsame).mp ((hmodels N).mpr hmodelsN v)

/-- for each value of one name there is a value of another one -/
def serial : Term :=
  .quantified Quantifier.all.name ["?X"]
    (.quantified Quantifier.any.name ["?Y"] (.app "p" [.atom "?X", .atom "?Y"]))

theorem isFormula_serial : serial.IsFormula Term.IsAtomicFormula .full := by
  refine .quantified trivial (by decide) (.quantified trivial (by decide) (.atomic (.app ?_ ?_)))
  · exact ⟨by decide, by decide⟩
  · refine List.forall_mem_cons.mpr ⟨.var (by decide), List.forall_mem_singleton.mpr ?_⟩
    exact .var (by decide)

theorem equisatisfiable_serial :
    serial.IsFormula Term.IsAtomicFormula .full ∧ serial.containsSkolem = false ∧
      (0 : UInt32).toNat + draws serial ⟨0⟩ < 2 ^ 32 ∧
      ∀ M : Interpretation Nat, M.Models serial →
        ∃ N, M.AgreeOff (ofTerm serial ⟨0⟩).1.NewSymbol N ∧ N.Satisfies (ofTerm serial ⟨0⟩).1 := by
  have hskolem : serial.containsSkolem = false := by cbv
  have hdraws : (0 : UInt32).toNat + draws serial ⟨0⟩ < 2 ^ 32 := by
    have h : draws serial ⟨0⟩ = 4 := by cbv
    rw [h]
    decide
  refine ⟨isFormula_serial, hskolem, hdraws, fun M => ?_⟩
  exact ((equisatisfiable serial isFormula_serial hskolem ⟨0⟩ hdraws).2 Nat M).2

end ClausalForm

end OntologyPrep
