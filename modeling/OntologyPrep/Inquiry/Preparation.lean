import OntologyPrep.Inquiry.Predicate
import OntologyPrep.Inquiry.Row
import OntologyPrep.Inquiry.Sort
import OntologyPrep.Preparation.Basic

/-!
# Preparing formulas by asking

`Inquiry.prepare` does what `Formula.prepare` does without having the knowledge base at hand, and so it can
be run in a consulted one.
-/

namespace OntologyPrep.Inquiry

/-! ## candidates -/

/-- what becomes of a term when applied variables are instantiated, unless they are left alone -/
def outcome (settings : Settings) (t : Term) : StateT Supply Inquiry Outcome :=
  if settings.holdsPrefix then return .notApplicable else instantiatePredicates t

/-- terms instantiated from left to right, as long as there is room -/
def instantiateEach (settings : Settings) :
    List Term → Candidates → StateT Supply Inquiry Candidates
  | [], c => return c
  | t :: ts, c => do
    if c.room settings.expansionLimit = 0 then return { c with truncated := true }
    else
      let o ← outcome settings t
      instantiateEach settings ts (c.addOutcome settings.expansionLimit t o)

/-- the row variables of terms written out from left to right, as long as there is room -/
def expandEach (limit : Nat) : List Term → Candidates → StateT Supply Inquiry Candidates
  | [], c => return c
  | t :: ts, c => do
    if c.room limit = 0 then return { c with truncated := true }
    else
      let expanded ← expandRows (some (c.room limit)) t
      expandEach limit ts
        { c with
          terms := Distinct.addAll c.terms expanded.1
          truncated := c.truncated || expanded.2 }

/-- one round -/
def round (settings : Settings) (live : List Term) : StateT Supply Inquiry Candidates := do
  let c ← instantiateEach settings live .empty
  expandEach settings.expansionLimit c.terms { c with terms := [] }

/-- at most the given number of rounds; `problems` are those of the rounds before -/
def rounds (settings : Settings) :
    Nat → List Term → List Problem → StateT Supply Inquiry (List Term × List Problem)
  | 0, live, problems => return (live, problems)
  | n + 1, live, problems => do
    let c ← round settings live
    let problems := problems ++ c.problems
    if c.truncated then
      return (c.terms, problems ++ [.limitReached settings.expansionLimit])
    else if Distinct.sameElements c.terms live then return (c.terms, problems)
    else rounds settings n c.terms problems

/-- the terms that the term turns into, and the problems on the way -/
def candidates (settings : Settings) (t : Term) :
    StateT Supply Inquiry (List Term × List Problem) :=
  rounds settings (t.expansionWeight + 1) [t] []

/-! ## what is passed on -/

/-- why the term must not be passed on -/
def unsuitable? (settings : Settings) (query : Bool) (t : Term) : Inquiry (Option Problem) := do
  if !t.isAscii then return some (.notAscii t)
  else if !query && !t.hasOperatorHead && !t.containsQuoted && !t.freeVariables.isEmpty then
    return some (.freeVariables t)
  else if settings.checkArity then
    match ← (checkArity t).run with
    | .ok () => return none
    | .error e => return some (.wrongArity t e)
  else return none

/-- the form in which a candidate is passed on, guarded if that is asked for -/
def finalForm (settings : Settings) (query : Bool) (t : Term) :
    StateT TypeCache Inquiry Term := do
  if settings.addTypeRestrictions && !query && t.containsVariable then
    return (← restrictTypes t).tidyBinders
  else return t.tidyBinders

/-- one more candidate, or what is wrong with it -/
def add (settings : Settings) (query : Bool) (p : Prepared) (t : Term) : Inquiry Prepared := do
  match ← unsuitable? settings query t with
  | none => return { p with accepted := p.accepted ++ [t] }
  | some problem => return { p with problems := p.problems ++ [problem] }

/-! ## formulas -/

/-- a computation that draws names -/
def drawing {α : Type} (m : StateT Supply Inquiry α) : StateT Session Inquiry α := fun s => do
  let r ← m s.supply
  return (r.1, { s with supply := r.2 })

/-- a computation that looks at types -/
def typing {α : Type} (m : StateT TypeCache Inquiry α) : StateT Session Inquiry α := fun s => do
  let r ← m s.cache
  return (r.1, { s with cache := r.2 })

/-- what is passed on for a term -/
def prepareTerm (settings : Settings) (query : Bool) (t : Term) :
    StateT Session Inquiry Prepared := do
  let found ← drawing (candidates settings (t.mapAtoms settings.toAscii))
  let facts ← if query then pure [] else typing (missingFacts found.1)
  let finals ← (found.1 ++ facts).mapM fun c => typing (finalForm settings query c)
  (finals.foldlM (add settings query) ⟨[], found.2⟩ : Inquiry Prepared)

/-- what is passed on for the text of a formula -/
def prepareText (settings : Settings) (query : Bool) (f : Formula) :
    StateT Session Inquiry Prepared :=
  if Balance.isBalanced f.text then
    match f.term with
    | some t => prepareTerm settings query t
    | none => return .refuse .notSingle
  else return .refuse .unbalanced

/-- the formulas to pass on, and the formula with everything told that is wrong with it -/
def prepare (settings : Settings) (query : Bool) (f : Formula) :
    StateT Session Inquiry (List Formula × Formula) := do
  let p ← prepareText settings query f
  return (p.accepted.map f.derive, p.problems.foldl Formula.tell f)

/-- some formulas prepared one after another: all formulas to pass on, and the formulas themselves -/
def prepareAll (settings : Settings) (query : Bool) :
    List Formula → StateT Session Inquiry (List Formula × List Formula)
  | [] => return ([], [])
  | f :: fs => do
    let r ← prepare settings query f
    let rs ← prepareAll settings query fs
    return (r.1 ++ rs.1, r.2 :: rs.2)

end OntologyPrep.Inquiry
