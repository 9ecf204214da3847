import OntologyPrep.Inquiry.Basic
import OntologyPrep.Predicate.Instantiation

/-!
# Predicate variables by asking

`Inquiry.instantiatePredicates` replaces predicate variables by what the answers of a knowledge base offer.
Only an application of a variable makes it ask; the clues come first, and with them the signatures of the
relations that they rest on.
-/

namespace OntologyPrep.Inquiry

/-! ## clues -/

/-- what an argument says about the variable that it is -/
def argumentClue? (relation : String) (signature : KnowledgeBase.Signature) :
    Term × Nat → Inquiry (Option (String × PredicateClue))
  | (.atom a, position) => do
    if Name.isVariable a && (signature.at? position).getD false then
      let type ← argType? relation position
      return some (a, .place (type.filter fun type => (subclassBase? type).isNone))
    else return none
  | (.list _, _) => return none

/-- what the application of a relation says about the variables among its arguments -/
def argumentClues (relation : String) (args : List Term) :
    Inquiry (List (String × PredicateClue)) := do
  match ← signature? relation with
  | none => return []
  | some signature => (args.zipIdx 1).filterMapM (argumentClue? relation signature)

/-- all clues, each with its variable -/
def predicateClues : Term → Inquiry (List (String × PredicateClue))
  | .atom _ => return []
  | .list [] => return []
  | .list (.list xs :: args) => do
    let clues ← predicateClues (.list xs)
    return clues ++ (← args.mapM predicateClues).flatten
  | .list (.atom h :: args) =>
    match _h : (Term.list (.atom h :: args)).binder? with
    | some b => predicateClues b.body
    | none => do
      if Name.isVariable h then return (h, .head) :: (← args.mapM predicateClues).flatten
      else if formulaHolders.contains h then
        match args with
        | _ :: formula :: _ => predicateClues formula
        | _ => return []
      else if h = holdsName then
        match args with
        | relation :: others =>
          return relation.appliedClue ++ (← others.mapM predicateClues).flatten
        | [] => return []
      else if Name.isOperator h then return (← args.mapM predicateClues).flatten
      else
        let clues ← argumentClues h args
        return clues ++ (← args.mapM predicateClues).flatten
termination_by t => sizeOf t
decreasing_by
  · decreasing_tactic
  · decreasing_tactic
  · exact Term.sizeOf_body_lt ‹_›
  all_goals decreasing_tactic

theorem predicateClues_toTerm (b : Binder) : predicateClues b.toTerm = predicateClues b.body := by
  have h := Term.binder?_toTerm b
  rw [Binder.toTerm] at h ⊢
  rw [predicateClues]
  split <;> simp_all

theorem predicateClues_list {head : String} {args : List Term} :
    (Term.list (.atom head :: args)).binder? = none →
      predicateClues (.list (.atom head :: args)) =
        if Name.isVariable head then
          return (head, .head) :: (← args.mapM predicateClues).flatten
        else if formulaHolders.contains head then
          match args with
          | _ :: formula :: _ => predicateClues formula
          | _ => return []
        else if head = holdsName then
          match args with
          | relation :: others =>
            return relation.appliedClue ++ (← others.mapM predicateClues).flatten
          | [] => return []
        else if Name.isOperator head then return (← args.mapM predicateClues).flatten
        else do
          let clues ← argumentClues head args
          return clues ++ (← args.mapM predicateClues).flatten := by
  intro h
  rcases args with _ | ⟨x, _ | ⟨y, rest⟩⟩
  · rw [predicateClues]
    split <;> simp_all
  · rw [predicateClues]
    · split <;> simp_all
    · simp
  · rw [predicateClues]
    split <;> simp_all

/-- the variables that stand for relations, with what is known of them -/
def predicateVariables (t : Term) : Inquiry PredicateVariables :=
  return (← predicateClues t).foldl (fun vs c => vs.add c.1 c.2) ∅

/-! ## questions about a variable -/

/-- literals of the relation can be asked -/
def isAskable (relation : String) : Inquiry Bool := do
  if relation = instanceName then return true
  else return (← signature? relation).isSome

/-- the literal can be asked about the variable -/
def asksAbout (name : String) (l : Literal) : Inquiry Bool := do
  if Name.isVariable l.relation then return false
  else return (← isAskable l.relation) && !l.toTerm.containsSkolem && l.args.contains (.atom name) &&
    l ≠ .instanceOf name KnowledgeBase.relationClass

/-- the literals of a kind that can be asked about the variable, each once -/
def questionsAmong (f : ClausalForm) (name : String) (kind : Clause → List Term) :
    Inquiry (List Literal) :=
  return Distinct.ofList (← ((f.clauses.flatMap kind).filterMap fun t =>
    Literal.ofTerm? (f.inSources t)).filterM (asksAbout name))

/-- the questions that the clauses ask about the variable -/
def questions (f : ClausalForm) (name : String) : Inquiry (List Literal) := do
  match ← questionsAmong f name Clause.negative with
  | [] => questionsAmong f name Clause.positive
  | ls => return ls

/-- the questions about the variable, with those about the classes that are known of it -/
def templates (f : ClausalForm) (name : String) (use : PredicateUse) : Inquiry (List Literal) :=
  return Distinct.addAll (← questions f name)
    ((use.types.toList.filter (· ≠ KnowledgeBase.relationClass)).map (Literal.instanceOf name))

/-! ## joins -/

/-- the answers to a literal in which the variable is a constant -/
def rowsFor (name : String) (l : Literal) : Inquiry (List Bindings) :=
  return ((← ask l).filterMap l.bindings?).filter fun row =>
    row[name]?.any fun t => !t.isList && !t.isVariable

/-- the answers to questions about a variable, if any are left -/
def joinOfTemplates? (name : String) (templates : List Literal) : Inquiry (Option Join) := do
  let found ← (templates.mergeSort Literal.asksBefore).foldlM
    (fun j l => return Join.add j l (← rowsFor name l)) none
  return found.filter fun j => !j.rows.isEmpty

/-- the join for a variable; an applied variable must have one -/
def joinOfVariable (form : ClausalForm) (name : String) (use : PredicateUse) :
    ExceptT Rejection Inquiry (Option Join) := do
  match ← joinOfTemplates? name (← templates form name use) with
  | some j => return some j
  | none => if use.isHead then throw (.noValue name) else return none

/-- the joins for the variables of a formula, smaller ones first -/
def joins (form : ClausalForm) (vars : PredicateVariables) :
    ExceptT Rejection Inquiry (List Join) := do
  let found ← vars.toList.mapM fun v => joinOfVariable form v.1 v.2
  return (found.filterMap id).mergeSort fun i j => i.rows.length ≤ j.rows.length

/-! ## instances -/

/-- the term is a literal with an answer -/
def holds (t : Term) : Inquiry Bool :=
  match Literal.ofTerm? t with
  | some l => return !(← ask l).isEmpty
  | none => return false

/-- those literals that have no variables left and hold, each once -/
def confirmed (literals : List Literal) (values : Bindings) : Inquiry (List Term) :=
  (Distinct.ofList ((literals.map fun l => l.assign values).filter fun t =>
    !t.containsVariable)).filterM holds

/-- the values of a row in the places of their variables, and what holds for them left out -/
def extend (literals : List Literal) (i : Instance) (row : Bindings) : Inquiry Instance := do
  let i := row.toList.foldl (fun i p => i.assign p.1 p.2) i
  return { i with term := i.term.simplify (← confirmed literals i.values) }

/-- the instances of one instance that the rows of a join lead to -/
def successors (literals : List Literal) (rows : List Bindings) (i : Instance) :
    Inquiry (List Instance) := do
  let extended ← (rows.filter fun row => Bindings.agrees i.values row).mapM (extend literals i)
  extended.filterM fun j => return (← (checkArity j.term).run).isOk

/-- the instances after one join -/
def step (literals : List Literal) (rows : List Bindings) (found : List Instance) :
    Inquiry (List Instance) :=
  return (← found.mapM (successors literals rows)).flatten.foldl Instance.addNew []

/-- the instances after some joins; `literals` are the questions of the joins before -/
def steps : List Join → List Literal → List Instance → Inquiry (List Instance)
  | [], _, found => return found
  | j :: js, literals, found => do
    let literals := literals ++ j.used
    steps js literals (← step literals j.rows found)

/-- the instances of a formula in clausal form -/
def instances (vars : PredicateVariables) (t : Term) (form : ClausalForm) : Inquiry Outcome := do
  match ← (joins form vars).run with
  | .error reason => return .rejected reason
  | .ok js =>
    match ← steps js [] [⟨t, ∅⟩] with
    | [] => return .rejected .noneLeft
    | found => return .instantiated (found.map Instance.term)

/-- the formulas that the formula stands for when its predicate variables are relations -/
def instantiatePredicates (t : Term) : StateT Supply Inquiry Outcome := do
  if t.hasOperatorHead && t.hasVariableHead then
    let vars ← predicateVariables t
    if t.hasPredicateVariable vars then instances vars t (← silent (ClausalForm.ofTerm t))
    else return .notApplicable
  else return .notApplicable

end OntologyPrep.Inquiry
