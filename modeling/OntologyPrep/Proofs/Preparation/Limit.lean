import Mathlib.Tactic
import OntologyPrep.Proofs.Preparation.Rounds
import OntologyPrep.Proofs.Preparation.Verdict
import OntologyPrep.Proofs.Row.Budget

/-!
# The limit only leaves candidates out

* `Candidates.rounds?`                 the loop with a room that cannot be negative: it fails where more
                                       candidates are held than the limit allows, and it never does;
* `Candidates.rounds_of_le`            a larger limit makes no difference to a loop that does not report
                                       the limit;
* `Formula.prepare_within_limit`       neither does it to the preparation of a formula.

Each place that could leave a candidate out sets the flag of its part of the round; what is shown of a
place is that the flag not set means that the same happens with more room.
-/

namespace OntologyPrep

namespace Settings

/-- the same settings with another limit -/
def withLimit (settings : Settings) (n : Nat) : Settings := { settings with expansionLimit := n }

end Settings

namespace Candidates

variable {kb : KnowledgeBase} {settings : Settings}

/-! ## no more candidates than the limit -/

theorem length_addUpTo_le {c : Candidates} {limit : Nat} (h : c.terms.length ≤ limit)
    (ts : List Term) : (c.addUpTo limit ts).terms.length ≤ limit := by
  have hadd := Distinct.length_addAll_le c.terms (ts.take (c.room limit))
  have htaken : (ts.take (c.room limit)).length ≤ limit - c.terms.length := List.length_take_le _ _
  show (Distinct.addAll c.terms (ts.take (c.room limit))).length ≤ limit
  omega

theorem length_addOutcome_le {c : Candidates} {limit : Nat} (h : c.terms.length < limit) (t : Term)
    (o : Outcome) : (c.addOutcome limit t o).terms.length ≤ limit := by
  cases o with
  | instantiated ts => exact length_addUpTo_le (Nat.le_of_lt h) ts
  | notApplicable =>
    have hadd := Distinct.length_add_le c.terms t
    show (Distinct.add c.terms t).length ≤ limit
    omega
  | rejected reason => exact Nat.le_of_lt h

theorem length_lt_of_room {c : Candidates} {limit : Nat} (h : c.room limit ≠ 0) :
    c.terms.length < limit := by
  rw [room] at h
  omega

/-- the candidates after one more term is written out are no more than the limit -/
theorem length_addExpanded_le {c : Candidates} {limit : Nat} (hroom : c.room limit ≠ 0) (t : Term)
    (s : Supply) : (Distinct.addAll c.terms
      (t.expandRows kb (some (c.room limit)) s).1.1).length ≤ limit := by
  have hadd := Distinct.length_addAll_le c.terms (t.expandRows kb (some (c.room limit)) s).1.1
  have hexpanded := @Term.length_expandRows_le kb _ hroom t s
  have hlt := length_lt_of_room hroom
  rw [room] at hexpanded hadd ⊢
  omega

theorem length_expandEach_le {limit : Nat} {ts : List Term} {c : Candidates} (s : Supply)
    (h : c.terms.length ≤ limit) : (expandEach kb limit ts c s).1.terms.length ≤ limit :=
  expandEach_keeps (I := fun c => c.terms.length ≤ limit) (fun _ hc => hc)
    (fun t _ _ s hroom _ => length_addExpanded_le hroom t s) h s

theorem length_round_le (live : List Term) (s : Supply) :
    (round kb settings live s).1.terms.length ≤ settings.expansionLimit :=
  length_expandEach_le _ (Nat.zero_le _)

theorem length_rounds_le {n : Nat} {live : List Term} {problems : List Problem} {s : Supply}
    (h : live.length ≤ settings.expansionLimit ∨ n ≠ 0) :
    (rounds kb settings n live problems s).1.1.length ≤ settings.expansionLimit := by
  induction n generalizing live problems s with
  | zero => exact h.resolve_right (fun hn => hn rfl)
  | succ n ih =>
    rw [rounds_succ]
    split
    · exact length_round_le live s
    · split
      · exact length_round_le live s
      · exact ih (.inl (length_round_le live s))

/-! ## a room that cannot be negative -/

/-- the number of candidates that there is room for; nothing if there are more already -/
def room? (c : Candidates) (limit : Nat) : Option Nat :=
  if c.terms.length ≤ limit then some (limit - c.terms.length) else none

theorem room?_eq {c : Candidates} {limit : Nat} (h : c.terms.length ≤ limit) :
    c.room? limit = some (c.room limit) := if_pos h

/-- `instantiateEach`, which fails where the room would be negative -/
def instantiateEach? (kb : KnowledgeBase) (settings : Settings) :
    List Term → Candidates → Supply → Option (Candidates × Supply)
  | [], c, s => some (c, s)
  | t :: ts, c, s => (c.room? settings.expansionLimit).bind fun room =>
    if room = 0 then some ({ c with truncated := true }, s)
    else
      let o := outcome kb settings t s
      instantiateEach? kb settings ts (c.addOutcome settings.expansionLimit t o.1) o.2

/-- `expandEach`, which fails where the room would be negative -/
def expandEach? (kb : KnowledgeBase) (limit : Nat) :
    List Term → Candidates → Supply → Option (Candidates × Supply)
  | [], c, s => some (c, s)
  | t :: ts, c, s => (c.room? limit).bind fun room =>
    if room = 0 then some ({ c with truncated := true }, s)
    else
      let expanded := t.expandRows kb (some room) s
      expandEach? kb limit ts
        { c with
          terms := Distinct.addAll c.terms expanded.1.1
          truncated := c.truncated || expanded.1.2 } expanded.2

/-- `round`, which fails where the room would be negative -/
def round? (kb : KnowledgeBase) (settings : Settings) (live : List Term) (s : Supply) :
    Option (Candidates × Supply) :=
  (instantiateEach? kb settings live empty s).bind fun r =>
    expandEach? kb settings.expansionLimit r.1.terms { r.1 with terms := [] } r.2

/-- `rounds`, which fails where the room would be negative -/
def rounds? (kb : KnowledgeBase) (settings : Settings) :
    Nat → List Term → List Problem → Supply → Option ((List Term × List Problem) × Supply)
  | 0, live, problems, s => some ((live, problems), s)
  | n + 1, live, problems, s => (round? kb settings live s).bind fun r =>
    let problems := problems ++ r.1.problems
    if r.1.truncated then
      some ((r.1.terms, problems ++ [.limitReached settings.expansionLimit]), r.2)
    else if Distinct.sameElements r.1.terms live then some ((r.1.terms, problems), r.2)
    else rounds? kb settings n r.1.terms problems r.2

theorem instantiateEach?_eq {ts : List Term} {c : Candidates} {s : Supply}
    (h : c.terms.length ≤ settings.expansionLimit) :
    instantiateEach? kb settings ts c s = some (instantiateEach kb settings ts c s) := by
  induction ts generalizing c s with
  | nil => rfl
  | cons t ts ih =>
    rw [instantiateEach?, room?_eq h, Option.bind_some, instantiateEach]
    split
    · rfl
    · next hroom => exact ih (length_addOutcome_le (length_lt_of_room hroom) t _)

theorem expandEach?_eq {limit : Nat} {ts : List Term} {c : Candidates} {s : Supply}
    (h : c.terms.length ≤ limit) :
    expandEach? kb limit ts c s = some (expandEach kb limit ts c s) := by
  induction ts generalizing c s with
  | nil => rfl
  | cons t ts ih =>
    rw [expandEach?, room?_eq h, Option.bind_some, expandEach]
    split
    · rfl
    · next hroom => exact ih (length_addExpanded_le hroom t s)

theorem round?_eq (live : List Term) (s : Supply) :
    round? kb settings live s = some (round kb settings live s) := by
  rw [round?, instantiateEach?_eq (Nat.zero_le _), Option.bind_some, round_eq]
  exact expandEach?_eq (Nat.zero_le _)

/-- the room is never negative -/
theorem rounds?_eq (n : Nat) (live : List Term) (problems : List Problem) (s : Supply) :
    rounds? kb settings n live problems s = some (rounds kb settings n live problems s) := by
  induction n generalizing live problems s with
  | zero => rfl
  | succ n ih =>
    rw [rounds?, round?_eq, Option.bind_some, rounds_succ]
    split
    · rfl
    · split
      · rfl
      · exact ih _ _ _

/-! ## more room -/

variable {n : Nat} (hle : settings.expansionLimit ≤ n)

include hle

theorem addOutcome_of_le {c : Candidates} {t : Term} {o : Outcome}
    (h : (c.addOutcome settings.expansionLimit t o).truncated = false) :
    c.addOutcome n t o = c.addOutcome settings.expansionLimit t o := by
  cases o with
  | instantiated ts =>
    obtain ⟨hbefore, hroom⟩ := Bool.or_eq_false_iff.mp h
    have hall : ts.length ≤ c.room settings.expansionLimit := by simpa using hroom
    have hall' : ts.length ≤ c.room n := by
      rw [room] at hall ⊢
      omega
    have htaken : ts.take (c.room n) = ts.take (c.room settings.expansionLimit) := by
      rw [List.take_of_length_le hall', List.take_of_length_le hall]
    have hflag : (c.truncated || decide (c.room n < ts.length)) =
        (c.truncated || decide (c.room settings.expansionLimit < ts.length)) := by
      rw [decide_eq_false (Nat.not_lt.mpr hall'), decide_eq_false (Nat.not_lt.mpr hall)]
    show c.addUpTo n ts = c.addUpTo settings.expansionLimit ts
    rw [addUpTo, addUpTo, htaken, hflag]
  | notApplicable => rfl
  | rejected reason => rfl

theorem instantiateEach_of_le {ts : List Term} {c : Candidates} {s : Supply}
    (h : (instantiateEach kb settings ts c s).1.truncated = false) :
    instantiateEach kb (settings.withLimit n) ts c s = instantiateEach kb settings ts c s := by
  induction ts generalizing c s with
  | nil => rfl
  | cons t ts ih =>
    rw [instantiateEach] at h
    split at h
    · cases h
    · next hroom =>
      rw [State.bind_apply] at h
      have hroom' : c.room (settings.withLimit n).expansionLimit ≠ 0 := by
        show c.room n ≠ 0
        rw [room] at hroom ⊢
        omega
      have hfirst : (c.addOutcome settings.expansionLimit t
          (outcome kb settings t s).1).truncated = false :=
        Bool.eq_false_iff.mpr fun htrue => by
          rw [instantiateEach_le.2 htrue] at h
          cases h
      rw [instantiateEach, instantiateEach, if_neg hroom, if_neg hroom', State.bind_apply,
        State.bind_apply, ← ih h, ← addOutcome_of_le hle hfirst]
      rfl

omit hle in
theorem expandEach_of_le {m : Nat} (hle : m ≤ n) {ts : List Term} {c : Candidates} {s : Supply}
    (h : (expandEach kb m ts c s).1.truncated = false) :
    expandEach kb n ts c s = expandEach kb m ts c s := by
  induction ts generalizing c s with
  | nil => rfl
  | cons t ts ih =>
    rw [expandEach] at h
    split at h
    · cases h
    · next hroom =>
      rw [State.bind_apply] at h
      have hroom' : c.room n ≠ 0 := by
        rw [room] at hroom ⊢
        omega
      have hmore : c.room m ≤ c.room n := by
        rw [room, room]
        omega
      have hfirst : (t.expandRows kb (some (c.room m)) s).1.2 = false :=
        Bool.eq_false_iff.mpr fun htrue => by
          rw [expandEach_le.2 (by rw [htrue, Bool.or_true])] at h
          cases h
      rw [expandEach, expandEach, if_neg hroom, if_neg hroom', State.bind_apply, State.bind_apply,
        Term.expandRows_of_le hmore hfirst]
      exact ih h

/-- a round that leaves nothing out does the same with more room -/
theorem round_of_le {live : List Term} {s : Supply}
    (h : (round kb settings live s).1.truncated = false) :
    round kb (settings.withLimit n) live s = round kb settings live s := by
  rw [round_eq] at h
  have hfirst : (instantiateEach kb settings live empty s).1.truncated = false :=
    Bool.eq_false_iff.mpr fun htrue => by
      have htruncated := (@expandEach_le kb settings.expansionLimit
        (instantiateEach kb settings live empty s).1.terms
        { (instantiateEach kb settings live empty s).1 with terms := [] }
        (instantiateEach kb settings live empty s).2).2 htrue
      rw [htruncated] at h
      cases h
  rw [round_eq, round_eq, instantiateEach_of_le hle hfirst]
  exact expandEach_of_le hle h

/-- rounds that do not report the limit do the same with more room -/
theorem rounds_of_le {k : Nat} {live : List Term} {problems : List Problem} {s : Supply}
    (h : ∀ p ∈ (rounds kb settings k live problems s).1.2, p.code ≠ "W-EXPANSION-LIMIT") :
    rounds kb (settings.withLimit n) k live problems s = rounds kb settings k live problems s := by
  induction k generalizing live problems s with
  | zero => rfl
  | succ k ih =>
    rw [rounds_succ] at h
    split at h
    · exact absurd rfl (h (.limitReached settings.expansionLimit) (by simp))
    · next htruncated =>
      rw [rounds_succ, rounds_succ, round_of_le hle (by simpa using htruncated),
        if_neg htruncated, if_neg htruncated]
      split at h
      · next hsame => rw [if_pos hsame, if_pos hsame]
      · next hsame =>
        rw [if_neg hsame, if_neg hsame]
        exact ih h

end Candidates

/-! ## the preparation of a formula -/

/-- a preparation that does not report the limit does the same with more room -/
theorem Term.prepare_of_le {kb : KnowledgeBase} {settings : Settings} {query : Bool} {n : Nat}
    (hle : settings.expansionLimit ≤ n) {t : Term} {σ : Session}
    (h : ∀ p ∈ (t.prepare kb settings query σ).1.problems, p.code ≠ "W-EXPANSION-LIMIT") :
    t.prepare kb (settings.withLimit n) query σ = t.prepare kb settings query σ := by
  rw [prepare_eq] at h
  have hfound : (t.mapAtoms settings.toAscii).candidates kb (settings.withLimit n) σ.supply =
      (t.mapAtoms settings.toAscii).candidates kb settings σ.supply := by
    refine Candidates.rounds_of_le hle fun p hp => h p ?_
    rw [judge_fst]
    exact List.mem_append_left _ hp
  have hjudge : judge kb (settings.withLimit n) query = judge kb settings query := rfl
  have hascii : (settings.withLimit n).toAscii = settings.toAscii := rfl
  rw [prepare_eq, prepare_eq, found, found, hascii, hfound, hjudge]

namespace Formula

theorem prepareText_of_le {kb : KnowledgeBase} {settings : Settings} {query : Bool} {n : Nat}
    (hle : settings.expansionLimit ≤ n) {f : Formula} {σ : Session}
    (h : ∀ p ∈ (f.prepareText kb settings query σ).1.problems, p.code ≠ "W-EXPANSION-LIMIT") :
    f.prepareText kb (settings.withLimit n) query σ = f.prepareText kb settings query σ := by
  rcases f.prepareText_cases with ⟨t, hbalanced, hterm⟩ | ⟨p, _, hrefused⟩
  · rw [prepareText_of_term hbalanced hterm] at h ⊢
    rw [prepareText_of_term hbalanced hterm]
    exact Term.prepare_of_le hle h
  · rw [hrefused, hrefused]

/-- No more candidates are found than the limit allows, and the room left for others is never negative.
A preparation that adds no report of the limit to the diagnostics of its formula does the same with
every larger limit: it passes on the same formulas in the same order, adds the same diagnostics, and
leaves the same supply of names and the same cache. -/
theorem prepare_within_limit (kb : KnowledgeBase) (settings : Settings) :
    (∀ t s, (t.candidates kb settings s).1.1.length ≤ settings.expansionLimit ∧
      Candidates.rounds? kb settings (t.expansionWeight + 1) [t] [] s =
        some (t.candidates kb settings s)) ∧
    ∀ query (f : Formula) σ (added : List Diagnostic),
      (f.prepare kb settings query σ).1.2.diagnostics = f.diagnostics ++ added →
      (∀ d ∈ added, d.code ≠ "W-EXPANSION-LIMIT") →
      ∀ n, settings.expansionLimit ≤ n →
        f.prepare kb { settings with expansionLimit := n } query σ =
          f.prepare kb settings query σ := by
  refine ⟨fun t s => ⟨Candidates.length_rounds_le (.inr (Nat.succ_ne_zero _)),
    Candidates.rounds?_eq _ _ _ _⟩, fun query f σ added hadded hlimit n hle => ?_⟩
  have htext : f.prepareText kb (settings.withLimit n) query σ =
      f.prepareText kb settings query σ := prepareText_of_le hle fun p hp =>
    hlimit (p.diagnostic f) (by rw [added_eq hadded]; exact List.mem_map_of_mem hp)
  rw [prepare_eq, prepare_eq, ← htext]
  rfl

/-- one formula is all that a row variable under a quantifier makes, so a limit of one is enough -/
theorem prepare_within_limit_row :
    (ofText "(exists (@R) (p @R))").prepare .empty (Settings.withLimit {} 2000) false (.start ⟨0⟩) =
      (ofText "(exists (@R) (p @R))").prepare .empty (Settings.withLimit {} 1) false (.start ⟨0⟩) :=
  (prepare_within_limit .empty (Settings.withLimit {} 1)).2 false (ofText "(exists (@R) (p @R))")
    (.start ⟨0⟩) [] (by cbv) (fun _ hd => absurd hd List.not_mem_nil) 2000 (by decide)

end Formula

end OntologyPrep
