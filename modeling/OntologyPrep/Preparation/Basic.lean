import OntologyPrep.Preparation.Candidates
import OntologyPrep.Preparation.SortalFacts
import OntologyPrep.Sort.Restriction
import OntologyPrep.Text.Balance

/-!
# Preparing formulas for a prover

`Formula.prepare` turns a formula into those that a prover can use: without foreign characters, with
relations in place of predicate variables and individuals in place of row variables, and together
with the facts about its classes.  A query gets no such facts and no guards, and may have free
variables.  What is wrong is told about the formula that was given.

A `Session` carries the supply of names and the cache from one formula to the next.
-/

namespace OntologyPrep

namespace Term

/-- every quantified formula with a list of nothing but the names that it binds -/
def tidyBinders : Term → Term
  | .atom a => .atom a
  | .list items =>
    match _h : (Term.list items).binder? with
    | some b => .quantified b.quantifier.name b.names b.body.tidyBinders
    | none => .list (items.map tidyBinders)
termination_by t => sizeOf t
decreasing_by
  · exact sizeOf_body_lt ‹_›
  · decreasing_tactic

/-- why the term must not be passed on -/
def unsuitable? (kb : KnowledgeBase) (settings : Settings) (query : Bool) (t : Term) :
    Option Problem :=
  if !t.isAscii then some (.notAscii t)
  else if !query && !t.hasOperatorHead && !t.containsQuoted && !t.freeVariables.isEmpty then
    some (.freeVariables t)
  else if settings.checkArity then
    match t.checkArity kb.valence with
    | .ok () => none
    | .error e => some (.wrongArity t e)
  else none

/-- the form in which a candidate is passed on, guarded if that is asked for -/
def finalForm (kb : KnowledgeBase) (settings : Settings) (query : Bool) (t : Term) :
    StateM TypeCache Term := do
  if settings.addTypeRestrictions && !query && t.containsVariable then
    return (← t.restrictTypes kb).tidyBinders
  else return t.tidyBinders

end Term

/-- what is carried from formula to formula -/
structure Session where
  supply : Supply
  cache : TypeCache

namespace Session

/-- before the first formula, with a supply of names -/
def start (supply : Supply) : Session := ⟨supply, .empty⟩

/-- a computation that draws names -/
def drawing {α : Type} (m : StateM Supply α) : StateM Session α := fun s =>
  let r := m s.supply
  (r.1, { s with supply := r.2 })

/-- a computation that looks at types -/
def typing {α : Type} (m : StateM TypeCache α) : StateM Session α := fun s =>
  let r := m s.cache
  (r.1, { s with cache := r.2 })

end Session

/-- the formulas to pass on, and what there is to tell -/
structure Prepared where
  accepted : List Term
  problems : List Problem

namespace Prepared

/-- nothing to pass on, for one reason -/
def refuse (p : Problem) : Prepared := ⟨[], [p]⟩

/-- one more candidate, or what is wrong with it -/
def add (kb : KnowledgeBase) (settings : Settings) (query : Bool) (p : Prepared) (t : Term) :
    Prepared :=
  match t.unsuitable? kb settings query with
  | none => { p with accepted := p.accepted ++ [t] }
  | some problem => { p with problems := p.problems ++ [problem] }

end Prepared

/-- what is passed on for a term -/
def Term.prepare (kb : KnowledgeBase) (settings : Settings) (query : Bool) (t : Term) :
    StateM Session Prepared := do
  let found ← Session.drawing ((t.mapAtoms settings.toAscii).candidates kb settings)
  let facts ← if query then pure [] else Session.typing (kb.missingFacts found.1)
  let finals ← (found.1 ++ facts).mapM fun c =>
    Session.typing (c.finalForm kb settings query)
  return finals.foldl (Prepared.add kb settings query) ⟨[], found.2⟩

namespace Formula

/-- what is passed on for the text of a formula -/
def prepareText (kb : KnowledgeBase) (settings : Settings) (query : Bool) (f : Formula) :
    StateM Session Prepared :=
  if Balance.isBalanced f.text then
    match f.term with
    | some t => t.prepare kb settings query
    | none => pure (.refuse .notSingle)
  else pure (.refuse .unbalanced)

/-- the formulas to pass on, and the formula with everything told that is wrong with it -/
def prepare (kb : KnowledgeBase) (settings : Settings) (query : Bool) (f : Formula) :
    StateM Session (List Formula × Formula) := do
  let p ← f.prepareText kb settings query
  return (p.accepted.map f.derive, p.problems.foldl tell f)

/-- some formulas prepared one after another: all formulas to pass on, and the formulas themselves -/
def prepareAll (kb : KnowledgeBase) (settings : Settings) (query : Bool) :
    List Formula → StateM Session (List Formula × List Formula)
  | [] => pure ([], [])
  | f :: fs => do
    let r ← f.prepare kb settings query
    let rs ← prepareAll kb settings query fs
    return (r.1 ++ rs.1, r.2 :: rs.2)

end Formula

end OntologyPrep
