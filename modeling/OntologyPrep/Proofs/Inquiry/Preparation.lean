import OntologyPrep.Inquiry.Preparation
import OntologyPrep.Proofs.Inquiry.Predicate
import OntologyPrep.Proofs.Inquiry.Row
import OntologyPrep.Proofs.Inquiry.Sort

/-!
# Formulas prepared in a consulted knowledge base

Whatever has been told and asked before, formulas prepared by asking come to what they come to with the told
terms at hand, with the same names drawn and the same types remembered, unless the signature of a relation
is asked for that is declared at a position too high for a vector (`Inquiry.run_prepareAll`).
-/

namespace OntologyPrep.Inquiry

variable {kb : KnowledgeBase}

/-! ## candidates -/

theorem result_outcome (settings : Settings) (t : Term) :
    resultState kb (outcome settings t) = Candidates.outcome kb settings t := by
  rw [outcome, apply_ite (resultState kb), result_instantiatePredicates, resultState_pure,
    Candidates.outcome]

theorem result_instantiateEach (settings : Settings) (ts : List Term) (c : Candidates) :
    resultState kb (instantiateEach settings ts c) =
      Candidates.instantiateEach kb settings ts c := by
  induction ts generalizing c with
  | nil => rfl
  | cons t ts ih =>
    rw [instantiateEach, Candidates.instantiateEach, apply_ite (resultState kb), resultState_bind,
      result_outcome]
    simp only [ih, resultState_pure]

theorem result_expandEach (limit : Nat) (ts : List Term) (c : Candidates) :
    resultState kb (expandEach limit ts c) = Candidates.expandEach kb limit ts c := by
  induction ts generalizing c with
  | nil => rfl
  | cons t ts ih =>
    rw [expandEach, Candidates.expandEach, apply_ite (resultState kb), resultState_bind,
      result_expandRows]
    simp only [ih, resultState_pure]

theorem result_round (settings : Settings) (live : List Term) :
    resultState kb (round settings live) = Candidates.round kb settings live := by
  simp only [round, resultState_bind, result_instantiateEach, result_expandEach, Candidates.round]

theorem result_rounds (settings : Settings) (n : Nat) (live : List Term)
    (problems : List Problem) : resultState kb (rounds settings n live problems) =
      Candidates.rounds kb settings n live problems := by
  induction n generalizing live problems with
  | zero => rfl
  | succ n ih =>
    rw [rounds, Candidates.rounds, resultState_bind, result_round]
    simp only [apply_ite (resultState kb), ih, resultState_pure]

/-- the terms that a term turns into, and the problems on the way -/
theorem result_candidates (settings : Settings) (t : Term) :
    resultState kb (candidates settings t) = t.candidates kb settings :=
  result_rounds settings _ _ _

/-! ## what is passed on -/

theorem result_unsuitable? (settings : Settings) (query : Bool) (t : Term) :
    (unsuitable? settings query t).result kb = t.unsuitable? kb settings query := by
  have hcheck : (checkArity t).run.result kb = t.checkArity kb.valence := result_checkArity t
  unfold unsuitable? Term.unsuitable?
  simp only [apply_ite (result kb), result_pure, result_bind, hcheck]
  cases t.checkArity kb.valence with
  | ok _ => rfl
  | error e => rfl

theorem result_finalForm (settings : Settings) (query : Bool) (t : Term) :
    resultState kb (finalForm settings query t) = t.finalForm kb settings query := by
  rw [finalForm, apply_ite (resultState kb), resultState_bind, result_restrictTypes,
    resultState_pure, Term.finalForm]
  simp only [resultState_pure]

theorem result_add (settings : Settings) (query : Bool) (p : Prepared) (t : Term) :
    (add settings query p t).result kb = p.add kb settings query t := by
  rw [add, result_bind, result_unsuitable?, Prepared.add]
  cases t.unsuitable? kb settings query with
  | none => rfl
  | some problem => rfl

/-! ## formulas -/

section

variable {α : Type}

theorem result_drawing (m : StateT Supply Inquiry α) :
    resultState kb (drawing m) = Session.drawing (resultState kb m) :=
  funext fun s => result_bind (m s.supply) _

theorem result_typing (m : StateT TypeCache Inquiry α) :
    resultState kb (typing m) = Session.typing (resultState kb m) :=
  funext fun s => result_bind (m s.cache) _

end

theorem result_prepareTerm (settings : Settings) (query : Bool) (t : Term) :
    resultState kb (prepareTerm settings query t) = t.prepare kb settings query := by
  have hfinals (ts : List Term) :
      resultState kb (ts.mapM fun c => typing (finalForm settings query c)) =
        ts.mapM fun c => Session.typing (c.finalForm kb settings query) :=
    resultState_mapM fun c _ => by rw [result_typing, result_finalForm]
  have hprepared (ts : List Term) (p : Prepared) :
      (ts.foldlM (add settings query) p).result kb = ts.foldl (.add kb settings query) p := by
    simp only [result_foldlM, result_add]
  rw [prepareTerm, Term.prepare, resultState_bind, result_drawing, result_candidates]
  simp only [resultState_bind, apply_ite (resultState kb), resultState_pure, result_typing,
    result_missingFacts, hfinals, resultState_lift, hprepared]

theorem result_prepareText (settings : Settings) (query : Bool) (f : Formula) :
    resultState kb (prepareText settings query f) = f.prepareText kb settings query := by
  unfold prepareText Formula.prepareText
  split
  · cases f.term with
    | some t => exact result_prepareTerm settings query t
    | none => rfl
  · rfl

theorem result_prepare (settings : Settings) (query : Bool) (f : Formula) :
    resultState kb (prepare settings query f) = f.prepare kb settings query := by
  rw [prepare, resultState_bind, result_prepareText, Formula.prepare]
  rfl

/-- all formulas to pass on, the formulas themselves, and what is carried on from formula to formula -/
theorem result_prepareAll (settings : Settings) (query : Bool) (fs : List Formula) :
    resultState kb (prepareAll settings query fs) = Formula.prepareAll kb settings query fs := by
  induction fs with
  | nil => rfl
  | cons f fs ih =>
    rw [prepareAll, resultState_bind, result_prepare, Formula.prepareAll]
    simp only [resultState_bind, ih, resultState_pure]

/-! ## runs -/

open Consulted

/-- After any calls, in any order, formulas are prepared by asking as they are with the told terms at hand,
and what is remembered afterwards is what these say; but where the signature of a relation is asked for
that is declared at a position too high for a vector, nothing is returned. -/
theorem run_prepareAll (calls : List Call) (settings : Settings) (query : Bool) (fs : List Formula)
    (session : Session) :
    ((prepareAll settings query fs session).AsksOverlong
        (.tellAll .empty (calls.filterMap Call.told?)) →
      (prepareAll settings query fs session).run (after calls) = none) ∧
    (¬ (prepareAll settings query fs session).AsksOverlong
        (.tellAll .empty (calls.filterMap Call.told?)) →
      ∃ s, Current (.tellAll .empty (calls.filterMap Call.told?)) s ∧
        (prepareAll settings query fs session).run (after calls) =
          some (Formula.prepareAll (.tellAll .empty (calls.filterMap Call.told?)) settings query fs
            session, s)) := by
  generalize hkb : KnowledgeBase.empty.tellAll (calls.filterMap Call.told?) = kb
  have hresult : (prepareAll settings query fs session).result kb =
      Formula.prepareAll kb settings query fs session :=
    congrFun (result_prepareAll settings query fs) session
  rw [← hresult, ← hkb]
  exact run_after calls (prepareAll settings query fs session)

example : ((prepareAll {} false
      [.ofTerm (.app "and" [.app "?R" [.atom "a"], .app "r" [.atom "?R"]])] (.start ⟨0⟩)).run
    (after [.tell (.app "domain" [.atom "r", .atom "9223372036854775807", .atom "Relation"])])).isNone
      = true := by
  cbv

end OntologyPrep.Inquiry
