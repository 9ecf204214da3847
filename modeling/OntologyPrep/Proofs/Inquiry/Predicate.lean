import OntologyPrep.Inquiry.Predicate
import OntologyPrep.Proofs.Inquiry.Basic

/-!
# Predicate variables by asking are those of the knowledge base

Each computation that asks comes to what the computation with the knowledge base at hand gives:

* `Inquiry.result_predicateVariables`    the variables that stand for relations;
* `Inquiry.result_templates`, `Inquiry.result_joins`   the questions about them, and their answers;
* `Inquiry.result_steps`                 the instances after some joins;
* `Inquiry.result_instantiatePredicates` the instances of a formula.
-/

namespace OntologyPrep.Inquiry

variable {kb : KnowledgeBase}

/-! ## clues -/

theorem result_argumentClues (relation : String) (args : List Term) :
    (argumentClues relation args).result kb = Term.argumentClues kb relation args := by
  unfold argumentClues Term.argumentClues
  rw [result_bind, result_signature?]
  cases kb.signature? relation with
  | none => rfl
  | some signature =>
    simp only [result_filterMapM]
    congr 1
    funext p
    rcases p with ⟨_ | _, position⟩
    · exact apply_ite (result kb) _ _ _
    · rfl

/-- the clues of a formula -/
theorem result_predicateClues (t : Term) :
    (predicateClues t).result kb = t.predicateClues kb := by
  induction t using Term.binderInduction with
  | atom a => rw [predicateClues, Term.predicateClues_atom, result_pure]
  | binder b ih => rw [predicateClues_toTerm, Term.predicateClues_toTerm, ih]
  | list xs h ih =>
    cases xs with
    | nil => rw [predicateClues, Term.predicateClues, result_pure]
    | cons first args =>
      obtain ⟨hfirst, hargs⟩ := List.forall_mem_cons.mp ih
      cases first with
      | list ys =>
        rw [predicateClues, Term.predicateClues, result_bind, hfirst, result_bind, result_pure,
          flatten_result_mapM hargs]
      | atom head =>
        rw [predicateClues_list h, Term.predicateClues_list kb h]
        split
        · rw [result_bind, result_pure, flatten_result_mapM hargs]
        split
        -- only the second argument is a formula with clues
        · rcases args with _ | ⟨_, _ | ⟨formula, _⟩⟩
          · rfl
          · rfl
          · exact hargs formula (by simp)
        split
        · cases args with
          | nil => rfl
          | cons relation others =>
            rw [result_bind, result_pure, flatten_result_mapM (List.forall_mem_cons.mp hargs).2]
        split
        · rw [result_bind, result_pure, flatten_result_mapM hargs]
        · rw [result_bind, result_bind, result_pure, result_argumentClues, flatten_result_mapM hargs]

theorem result_predicateVariables (t : Term) :
    (predicateVariables t).result kb = t.predicateVariables kb := by
  rw [predicateVariables, result_bind, result_predicateClues]
  rfl

/-! ## questions about a variable -/

theorem result_isAskable (relation : String) : (isAskable relation).result kb =
    (decide (relation = instanceName) || (kb.signature? relation).isSome) := by
  unfold isAskable
  by_cases h : relation = instanceName
  · rw [if_pos h, decide_eq_true h]
    rfl
  · rw [if_neg h, decide_eq_false h]
    rfl

theorem result_asksAbout (name : String) (l : Literal) :
    (asksAbout name l).result kb = l.asksAbout kb name := by
  unfold asksAbout Literal.asksAbout
  cases Name.isVariable l.relation with
  | true => rfl
  | false => exact (result_bind _ _).trans (by rw [result_isAskable]; rfl)

theorem result_questionsAmong (f : ClausalForm) (name : String) (kind : Clause → List Term) :
    (questionsAmong f name kind).result kb = f.questionsAmong kb name kind := by
  simp only [questionsAmong, result_bind, result_filterM, result_asksAbout, result_pure,
    ClausalForm.questionsAmong]

theorem result_questions (f : ClausalForm) (name : String) :
    (questions f name).result kb = f.questions kb name := by
  rw [questions, result_bind, result_questionsAmong, ClausalForm.questions]
  cases f.questionsAmong kb name Clause.negative with
  | nil => exact result_questionsAmong f name Clause.positive
  | cons l ls => rfl

theorem result_templates (f : ClausalForm) (name : String) (use : PredicateUse) :
    (templates f name use).result kb = f.templates kb name use := by
  rw [templates, result_bind, result_questions]
  rfl

/-! ## joins -/

theorem result_rowsFor (name : String) (l : Literal) :
    (rowsFor name l).result kb = kb.rowsFor name l := by
  rw [rowsFor, result_bind, result_ask]
  rfl

theorem result_joinOfTemplates? (name : String) (templates : List Literal) :
    (joinOfTemplates? name templates).result kb = Join.ofTemplates? kb name templates := by
  simp only [joinOfTemplates?, result_bind, result_foldlM, result_rowsFor, result_pure,
    Join.ofTemplates?]

theorem result_joinOfVariable (form : ClausalForm) (name : String) (use : PredicateUse) :
    resultExcept kb (joinOfVariable form name use) = Join.ofVariable kb form name use := by
  rw [joinOfVariable, resultExcept_bind, resultExcept_lift, result_templates, pure_bind,
    resultExcept_bind, resultExcept_lift, result_joinOfTemplates?, pure_bind, Join.ofVariable]
  cases Join.ofTemplates? kb name (form.templates kb name use) with
  | some j => rfl
  | none => exact apply_ite (resultExcept kb) _ _ _

theorem result_joins (form : ClausalForm) (vars : PredicateVariables) :
    resultExcept kb (joins form vars) = Term.joins kb form vars := by
  have hfound : resultExcept kb (vars.toList.mapM fun v => joinOfVariable form v.1 v.2) =
      vars.toList.mapM fun v => Join.ofVariable kb form v.1 v.2 :=
    resultExcept_mapM fun v _ => result_joinOfVariable form v.1 v.2
  simp only [joins, resultExcept_bind, hfound, resultExcept_pure, Term.joins]

/-! ## instances -/

theorem result_holds (t : Term) : (holds t).result kb = kb.holds t := by
  unfold holds KnowledgeBase.holds
  cases Literal.ofTerm? t with
  | none => rfl
  | some l => rfl

theorem result_confirmed (literals : List Literal) (values : Bindings) :
    (confirmed literals values).result kb = kb.confirmed literals values := by
  simp only [confirmed, result_filterM, result_holds, KnowledgeBase.confirmed]

theorem result_extend (literals : List Literal) (i : Instance) (row : Bindings) :
    (extend literals i row).result kb = i.extend kb literals row := by
  simp only [extend, result_bind, result_confirmed, result_pure, Instance.extend]

theorem result_successors (literals : List Literal) (rows : List Bindings) (i : Instance) :
    (successors literals rows i).result kb = i.successors kb literals rows := by
  have hcheck : ∀ t, (checkArity t).run.result kb = t.checkArity kb.valence := result_checkArity
  simp only [successors, result_bind, result_mapM, result_extend, result_filterM, hcheck, result_pure,
    Instance.successors]

theorem result_step (literals : List Literal) (rows : List Bindings) (found : List Instance) :
    (step literals rows found).result kb = Instance.step kb literals rows found := by
  rw [step, result_bind, flatten_result_mapM fun i _ => result_successors literals rows i]
  rfl

/-- the instances after some joins -/
theorem result_steps (js : List Join) (literals : List Literal) (found : List Instance) :
    (steps js literals found).result kb = Instance.run kb js literals found := by
  induction js generalizing literals found with
  | nil => rfl
  | cons j js ih => rw [steps, result_bind, result_step, ih, Instance.run]

theorem result_instances (vars : PredicateVariables) (t : Term) (form : ClausalForm) :
    (instances vars t form).result kb = t.instances kb vars form := by
  have hjoins : (joins form vars).run.result kb = Term.joins kb form vars := result_joins form vars
  rw [instances, result_bind, hjoins, Term.instances]
  cases Term.joins kb form vars with
  | error reason => rfl
  | ok js =>
    simp only [result_bind, result_steps]
    cases Instance.run kb js [] [⟨t, ∅⟩] with
    | nil => rfl
    | cons i is => rfl

/-- The formulas that a formula stands for are the same, and so are the names drawn: nothing is asked unless
some variable is applied, and then the clues decide. -/
theorem result_instantiatePredicates (t : Term) :
    resultState kb (instantiatePredicates t) = t.instantiatePredicates kb := by
  have hunless : t.hasPredicateVariable (t.predicateVariables kb) = true →
      (t.hasOperatorHead && t.hasVariableHead) = true := fun h => (Bool.and_eq_true_iff.mp h).1
  unfold instantiatePredicates Term.instantiatePredicates
  split
  · rw [resultState_bind, resultState_lift, result_predicateVariables, pure_bind,
      apply_ite (resultState kb)]
    simp only [resultState_bind, resultState_silent, resultState_lift, result_instances,
      resultState_pure]
  · next h =>
    rw [if_neg fun hvar => h (hunless hvar)]
    rfl

end OntologyPrep.Inquiry
