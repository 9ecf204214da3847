import OntologyPrep.Preparation.Basic
import OntologyPrep.Proofs.State

/-!
# What a preparation tells

Preparing a term finds its candidates and then passes a verdict on each of them and on each missing
fact (`Term.prepare_eq`): the form that is passed on, or the problem with it (`Term.judge_fst`).  All
problems become diagnostics of the formula, behind those that it had (`Formula.diagnostics_prepare`).
-/

namespace OntologyPrep

theorem State.length_mapM {σ α β : Type} (f : α → StateM σ β) (xs : List α) (s : σ) :
    ((xs.mapM f) s).1.length = xs.length := by
  induction xs generalizing s with
  | nil => rfl
  | cons x xs ih =>
    rw [mapM_cons_apply, List.length_cons, List.length_cons, ih]

/-! ## verdicts -/

theorem Prepared.foldl_add (kb : KnowledgeBase) (settings : Settings) (query : Bool)
    (ts : List Term) (p : Prepared) : ts.foldl (add kb settings query) p =
      ⟨p.accepted ++ ts.filter fun t => (t.unsuitable? kb settings query).isNone,
        p.problems ++ ts.filterMap (Term.unsuitable? kb settings query)⟩ := by
  induction ts generalizing p with
  | nil => rw [List.filter_nil, List.filterMap_nil, List.append_nil, List.append_nil]; rfl
  | cons t ts ih =>
    rw [List.foldl_cons, ih, add]
    cases h : t.unsuitable? kb settings query with
    | none => simp [h]
    | some problem => simp [h]

/-- every term is passed on or has a problem -/
theorem Term.length_suitable (kb : KnowledgeBase) (settings : Settings) (query : Bool)
    (ts : List Term) :
    (ts.filter fun t => (t.unsuitable? kb settings query).isNone).length +
      (ts.filterMap (unsuitable? kb settings query)).length = ts.length := by
  induction ts with
  | nil => rfl
  | cons t ts ih =>
    cases h : t.unsuitable? kb settings query with
    | none =>
      rw [List.filter_cons_of_pos (by rw [h]; rfl), List.filterMap_cons_none h, List.length_cons,
        List.length_cons]
      omega
    | some problem =>
      rw [List.filter_cons_of_neg (by simp [h]), List.filterMap_cons_some h,
        List.length_cons, List.length_cons]
      omega

/-! ## the parts of a preparation -/

theorem Session.drawing_apply {α : Type} (m : StateM Supply α) (σ : Session) :
    Session.drawing m σ = ((m σ.supply).1, { σ with supply := (m σ.supply).2 }) := rfl

namespace Term

/-- what the term turns into, and the problems on the way -/
def found (kb : KnowledgeBase) (settings : Settings) (t : Term) (σ : Session) :
    List Term × List Problem :=
  ((t.mapAtoms settings.toAscii).candidates kb settings σ.supply).1

/-- the missing facts about the classes of some terms; none for a query -/
def facts (kb : KnowledgeBase) (query : Bool) (live : List Term) : StateM Session (List Term) :=
  if query then pure [] else Session.typing (kb.missingFacts live)

/-- the final forms of some candidates and of the facts missing about their classes -/
def finals (kb : KnowledgeBase) (settings : Settings) (query : Bool) (live : List Term) :
    StateM Session (List Term) := fun σ =>
  let facts := facts kb query live σ
  ((live ++ facts.1).mapM fun c => Session.typing (c.finalForm kb settings query)) facts.2

/-- the candidates and the facts, with a verdict on each -/
def judge (kb : KnowledgeBase) (settings : Settings) (query : Bool)
    (found : List Term × List Problem) : StateM Session Prepared := fun σ =>
  let finals := finals kb settings query found.1 σ
  (finals.1.foldl (Prepared.add kb settings query) ⟨[], found.2⟩, finals.2)

theorem judge_fst (kb : KnowledgeBase) (settings : Settings) (query : Bool)
    (found : List Term × List Problem) (σ : Session) : (judge kb settings query found σ).1 =
      ⟨(finals kb settings query found.1 σ).1.filter fun t =>
          (t.unsuitable? kb settings query).isNone,
        found.2 ++ (finals kb settings query found.1 σ).1.filterMap
          (unsuitable? kb settings query)⟩ :=
  Prepared.foldl_add kb settings query _ _

theorem prepare_eq (kb : KnowledgeBase) (settings : Settings) (query : Bool) (t : Term)
    (σ : Session) : t.prepare kb settings query σ =
      judge kb settings query (t.found kb settings σ)
        { σ with supply := ((t.mapAtoms settings.toAscii).candidates kb settings σ.supply).2 } := by
  rw [prepare, State.bind_apply, Session.drawing_apply, judge, finals, facts, found]
  cases query with
  | true => simp only [if_true, State.bind_apply, State.pure_apply]
  | false => simp only [Bool.false_eq_true, if_false, State.bind_apply, State.pure_apply]

end Term

/-! ## the preparation of a formula -/

namespace Formula

theorem prepare_eq (kb : KnowledgeBase) (settings : Settings) (query : Bool) (f : Formula)
    (σ : Session) : f.prepare kb settings query σ =
      (((f.prepareText kb settings query σ).1.accepted.map f.derive,
        (f.prepareText kb settings query σ).1.problems.foldl tell f),
        (f.prepareText kb settings query σ).2) := rfl

theorem prepareText_of_term {f : Formula} {t : Term} (hbalanced : Balance.isBalanced f.text = true)
    (hterm : f.term = some t) (kb : KnowledgeBase) (settings : Settings) (query : Bool) :
    f.prepareText kb settings query = t.prepare kb settings query := by
  unfold prepareText
  rw [if_pos hbalanced, hterm]

/-- a text is prepared as a term or refused, whatever the settings -/
theorem prepareText_cases (f : Formula) :
    (∃ t, Balance.isBalanced f.text = true ∧ f.term = some t) ∨
      ∃ p, p.code = "E-SYNTAX" ∧
        ∀ kb settings query, f.prepareText kb settings query = pure (.refuse p) := by
  unfold prepareText
  by_cases hbalanced : Balance.isBalanced f.text = true
  · cases hterm : f.term with
    | some t => exact .inl ⟨t, hbalanced, rfl⟩
    | none => exact .inr ⟨.notSingle, rfl, fun _ _ _ => if_pos hbalanced⟩
  · exact .inr ⟨.unbalanced, rfl, fun _ _ _ => if_neg hbalanced⟩

end Formula

/-! ## diagnostics -/

/-- the problem as a diagnostic of the formula -/
def Problem.diagnostic (f : Formula) (p : Problem) : Diagnostic :=
  ⟨p.code, p.message, f.span?, f.source⟩

namespace Formula

theorem diagnostics_foldl_tell (f : Formula) (ps : List Problem) :
    (ps.foldl tell f).diagnostics = f.diagnostics ++ ps.map (Problem.diagnostic f) := by
  -- telling a problem changes neither the place nor the source of the formula
  have hfold : ∀ g : Formula, g.text = f.text → g.line = f.line → g.source = f.source →
      (ps.foldl tell g).diagnostics = g.diagnostics ++ ps.map (Problem.diagnostic f) := by
    induction ps with
    | nil => exact fun g _ _ _ => (List.append_nil _).symm
    | cons p ps ih =>
      intro g htext hline hsource
      have hspan : g.span? = f.span? := by rw [span?, span?, htext, hline]
      rw [List.foldl_cons, ih (g.tell p) htext hline hsource]
      show g.diagnostics ++ [⟨p.code, p.message, g.span?, g.source⟩] ++ _ = _
      rw [hspan, hsource, List.append_assoc]
      rfl
  exact hfold f rfl rfl rfl

theorem diagnostics_prepare (kb : KnowledgeBase) (settings : Settings) (query : Bool) (f : Formula)
    (σ : Session) : (f.prepare kb settings query σ).1.2.diagnostics =
      f.diagnostics ++
        (f.prepareText kb settings query σ).1.problems.map (Problem.diagnostic f) :=
  diagnostics_foldl_tell f _

/-- the diagnostics that a preparation adds are its problems -/
theorem added_eq {kb : KnowledgeBase} {settings : Settings} {query : Bool} {f : Formula}
    {σ : Session} {added : List Diagnostic}
    (h : (f.prepare kb settings query σ).1.2.diagnostics = f.diagnostics ++ added) :
    added = (f.prepareText kb settings query σ).1.problems.map (Problem.diagnostic f) := by
  rw [diagnostics_prepare] at h
  exact (List.append_cancel_left h).symm

end Formula

end OntologyPrep
