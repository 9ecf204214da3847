import OntologyPrep.Preparation.Problem
import OntologyPrep.Preparation.Settings
import OntologyPrep.Row.Expansion

/-!
# What a formula turns into

In rounds, all candidates are instantiated and then have their row variables written out, until a
round changes nothing.  A round that would have to hold more candidates than the limit allows leaves
some out and is the last one.

A candidate that a round changes loses a variable, or has a row variable replaced by at most seven
others, so that `Term.expansionWeight` goes down; it bounds the number of rounds.
-/

namespace OntologyPrep

/-- the candidates of a part of a round, each once -/
structure Candidates where
  terms : List Term
  /-- some candidates were left out -/
  truncated : Bool
  problems : List Problem

namespace Candidates

/-- no candidates -/
def empty : Candidates := ⟨[], false, []⟩

/-- the number of candidates that there is room for -/
def room (c : Candidates) (limit : Nat) : Nat := limit - c.terms.length

/-- some more candidates, as many as there is room for -/
def addUpTo (c : Candidates) (limit : Nat) (ts : List Term) : Candidates :=
  { c with
    terms := Distinct.addAll c.terms (ts.take (c.room limit))
    truncated := c.truncated || c.room limit < ts.length }

/-- what becomes of a term put in its place -/
def addOutcome (c : Candidates) (limit : Nat) (t : Term) : Outcome → Candidates
  | .instantiated ts => c.addUpTo limit ts
  | .notApplicable => { c with terms := Distinct.add c.terms t }
  | .rejected reason => { c with problems := c.problems ++ [.notInstantiated reason] }

/-- what becomes of a term when applied variables are instantiated, unless they are left alone -/
def outcome (kb : KnowledgeBase) (settings : Settings) (t : Term) : StateM Supply Outcome :=
  if settings.holdsPrefix then pure .notApplicable else t.instantiatePredicates kb

/-- terms instantiated from left to right, as long as there is room -/
def instantiateEach (kb : KnowledgeBase) (settings : Settings) :
    List Term → Candidates → StateM Supply Candidates
  | [], c => pure c
  | t :: ts, c =>
    if c.room settings.expansionLimit = 0 then pure { c with truncated := true }
    else do
      let o ← outcome kb settings t
      instantiateEach kb settings ts (c.addOutcome settings.expansionLimit t o)

/-- the row variables of terms written out from left to right, as long as there is room -/
def expandEach (kb : KnowledgeBase) (limit : Nat) :
    List Term → Candidates → StateM Supply Candidates
  | [], c => pure c
  | t :: ts, c =>
    if c.room limit = 0 then pure { c with truncated := true }
    else do
      let expanded ← t.expandRows kb (some (c.room limit))
      expandEach kb limit ts
        { c with
          terms := Distinct.addAll c.terms expanded.1
          truncated := c.truncated || expanded.2 }

/-- one round -/
def round (kb : KnowledgeBase) (settings : Settings) (live : List Term) :
    StateM Supply Candidates := do
  let c ← instantiateEach kb settings live empty
  expandEach kb settings.expansionLimit c.terms { c with terms := [] }

/-- at most the given number of rounds; `problems` are those of the rounds before -/
def rounds (kb : KnowledgeBase) (settings : Settings) :
    Nat → List Term → List Problem → StateM Supply (List Term × List Problem)
  | 0, live, problems => pure (live, problems)
  | n + 1, live, problems => do
    let c ← round kb settings live
    let problems := problems ++ c.problems
    if c.truncated then
      return (c.terms, problems ++ [.limitReached settings.expansionLimit])
    else if Distinct.sameElements c.terms live then return (c.terms, problems)
    else rounds kb settings n c.terms problems

end Candidates

namespace Term

/-- the largest number of variables that a row variable is replaced by, and one more -/
def rowWeight : Nat := RowRange.limit

/-- the number of variables that the term has, a row variable counted for those in its place too -/
def expansionWeight (t : Term) : Nat :=
  t.atoms.countP Name.isPlainVariable + rowWeight * t.atoms.countP Name.isRowVariable

/-- the terms that the term turns into, and the problems on the way -/
def candidates (kb : KnowledgeBase) (settings : Settings) (t : Term) :
    StateM Supply (List Term × List Problem) :=
  Candidates.rounds kb settings (t.expansionWeight + 1) [t] []

end Term

end OntologyPrep
