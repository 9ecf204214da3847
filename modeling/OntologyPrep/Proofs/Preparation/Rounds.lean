import OntologyPrep.Proofs.Predicate.Weight
import OntologyPrep.Proofs.Row.Weight

/-!
# The rounds come to an end

A candidate is settled if neither part of a round has anything to do with it (`Term.IsSettled`).  A
round keeps a settled candidate and puts lighter terms in the place of any other one
(`Candidates.of_mem_round`), so that the loop needs no more than one round for each unit of the weight
of the term and one more.

* `Candidates.Ends`          the loop of rounds without any bound on their number;
* `Candidates.ends_rounds`   the bounded loop is that loop, given enough rounds;
* `Candidates.candidates_settled`   the loop ends for every term, and all candidates are settled
                                    unless some were left out.
-/

namespace OntologyPrep

namespace Term

/-- no applied variable is left to be instantiated, or such variables are left alone -/
def IsInstantiated (kb : KnowledgeBase) (settings : Settings) (t : Term) : Prop :=
  ∀ s, (Candidates.outcome kb settings t s).1 = .notApplicable

/-- a round has nothing to do with the term -/
def IsSettled (kb : KnowledgeBase) (settings : Settings) (t : Term) : Prop :=
  t.IsInstantiated kb settings ∧ t.IsExpanded

/-- the instances of a term say nothing about names drawn before if there are none -/
theorem isInstantiated_of_outcome {kb : KnowledgeBase} {settings : Settings} {t : Term} {s : Supply}
    (h : (Candidates.outcome kb settings t s).1 = .notApplicable) :
    t.IsInstantiated kb settings := by
  intro s'
  unfold Candidates.outcome at h ⊢
  split at h
  · next hp =>
    rw [if_pos hp]
    rfl
  · next hp =>
    rw [if_neg hp]
    unfold instantiatePredicates at h ⊢
    split at h
    · simp only [State.bind_apply, State.pure_apply, instances] at h
      split at h
      · cases h
      · split at h <;> cases h
    · next hn =>
      rw [if_neg hn]
      rfl

/-- a term that is not settled has a variable -/
theorem weight_pos_of_not_settled {kb : KnowledgeBase} {settings : Settings} {t : Term}
    (h : ¬ t.IsSettled kb settings) : 0 < t.expansionWeight := by
  cases hv : t.containsVariable with
  | true => exact expansionWeight_pos hv
  | false =>
    refine absurd ⟨fun s => ?_, fun hrow => ?_⟩ h
    · unfold Candidates.outcome
      split
      · rfl
      · unfold instantiatePredicates
        split
        · next hp =>
          rw [hasPredicateVariable, Bool.and_eq_true, Bool.and_eq_true] at hp
          rw [containsVariable_of_hasVariableHead hp.1.2] at hv
          cases hv
        · rfl
    · obtain ⟨a, ha, hrow⟩ := List.any_eq_true.mp hrow
      have := containsVariable_eq_false_iff.mp hv a ha
      rw [Name.isVariable_of_isRowVariable hrow] at this
      cases this

end Term

namespace Candidates

variable {kb : KnowledgeBase} {settings : Settings}

/-! ## what the two parts of a round keep -/

/-- what a full list and each further term leave alone holds once all terms have been instantiated -/
theorem instantiateEach_keeps {I : Candidates → Prop} {ts : List Term}
    (hfull : ∀ c, I c → I { c with truncated := true })
    (hstep : ∀ t ∈ ts, ∀ c s, c.room settings.expansionLimit ≠ 0 → I c →
      I (c.addOutcome settings.expansionLimit t (outcome kb settings t s).1))
    {c : Candidates} (h : I c) (s : Supply) : I (instantiateEach kb settings ts c s).1 := by
  induction ts generalizing c s with
  | nil => exact h
  | cons t ts ih =>
    obtain ⟨ht, hts⟩ := List.forall_mem_cons.mp hstep
    rw [instantiateEach]
    split
    · exact hfull c h
    · next hroom => exact ih hts (ht c s hroom h) _

/-- the same for the row variables that are written out -/
theorem expandEach_keeps {I : Candidates → Prop} {limit : Nat} {ts : List Term}
    (hfull : ∀ c, I c → I { c with truncated := true })
    (hstep : ∀ t ∈ ts, ∀ c s, c.room limit ≠ 0 → I c →
      I { c with
        terms := Distinct.addAll c.terms (t.expandRows kb (some (c.room limit)) s).1.1
        truncated := c.truncated || (t.expandRows kb (some (c.room limit)) s).1.2 })
    {c : Candidates} (h : I c) (s : Supply) : I (expandEach kb limit ts c s).1 := by
  induction ts generalizing c s with
  | nil => exact h
  | cons t ts ih =>
    obtain ⟨ht, hts⟩ := List.forall_mem_cons.mp hstep
    rw [expandEach]
    split
    · exact hfull c h
    · next hroom => exact ih hts (ht c s hroom h) _

/-! ## instantiating -/

theorem mem_addOutcome {c : Candidates} {limit : Nat} {t u : Term} {o : Outcome}
    (h : u ∈ (c.addOutcome limit t o).terms) :
    u ∈ c.terms ∨ o = .notApplicable ∧ u = t ∨ ∃ ts, o = .instantiated ts ∧ u ∈ ts := by
  cases o with
  | instantiated ts =>
    rcases Distinct.mem_addAll.mp h with h | h
    · exact .inl h
    · exact .inr (.inr ⟨ts, rfl, List.mem_of_mem_take h⟩)
  | notApplicable =>
    rcases Distinct.mem_add.mp h with h | h
    · exact .inl h
    · exact .inr (.inl ⟨rfl, h⟩)
  | rejected reason => exact .inl h

theorem outcome_lighter (hkb : kb.Faithful) {t u : Term} {s : Supply} {ts : List Term}
    (h : (outcome kb settings t s).1 = .instantiated ts) (hu : u ∈ ts) :
    u.expansionWeight < t.expansionWeight := by
  unfold outcome at h
  split at h
  · cases h
  · exact Term.weight_of_instantiated hkb h hu

/-- a candidate after the instantiation is an instantiated one from before, or lighter than one that is
not instantiated -/
theorem of_mem_instantiateEach (hkb : kb.Faithful) {ts : List Term} {c : Candidates} {s : Supply}
    {u : Term} (h : u ∈ (instantiateEach kb settings ts c s).1.terms) :
    u ∈ c.terms ∨ ∃ t ∈ ts, u = t ∧ t.IsInstantiated kb settings ∨
      u.expansionWeight < t.expansionWeight ∧ ¬ t.IsInstantiated kb settings := by
  refine instantiateEach_keeps (I := fun c' => ∀ u ∈ c'.terms, u ∈ c.terms ∨ ∃ t ∈ ts,
      u = t ∧ t.IsInstantiated kb settings ∨
        u.expansionWeight < t.expansionWeight ∧ ¬ t.IsInstantiated kb settings)
    (fun _ hc => hc) (fun t ht c' s' _ hc u hu => ?_) (fun u hu => .inl hu) s u h
  rcases mem_addOutcome hu with hu | ⟨ho, rfl⟩ | ⟨us, ho, hu⟩
  · exact hc u hu
  · exact .inr ⟨u, ht, .inl ⟨rfl, Term.isInstantiated_of_outcome ho⟩⟩
  · refine .inr ⟨t, ht, .inr ⟨outcome_lighter hkb ho hu, fun hi => ?_⟩⟩
    rw [hi s'] at ho
    cases ho

/-- instantiating more terms takes nothing back -/
theorem instantiateEach_le {ts : List Term} {c : Candidates} {s : Supply} :
    (∀ u ∈ c.terms, u ∈ (instantiateEach kb settings ts c s).1.terms) ∧
      (c.truncated = true → (instantiateEach kb settings ts c s).1.truncated = true) := by
  refine instantiateEach_keeps (I := fun c' => (∀ u ∈ c.terms, u ∈ c'.terms) ∧
      (c.truncated = true → c'.truncated = true))
    (fun _ hc => ⟨hc.1, fun _ => rfl⟩) (fun t _ c' s' _ hc => ?_) ⟨fun _ hu => hu, fun h => h⟩ s
  obtain ⟨hterms, htruncated⟩ := hc
  cases (outcome kb settings t s').1 with
  | instantiated us =>
    exact ⟨fun u hu => Distinct.mem_addAll.mpr (.inl (hterms u hu)),
      fun h => Bool.or_eq_true_iff.mpr (.inl (htruncated h))⟩
  | notApplicable => exact ⟨fun u hu => Distinct.mem_add.mpr (.inl (hterms u hu)), htruncated⟩
  | rejected reason => exact ⟨hterms, htruncated⟩

theorem mem_instantiateEach {ts : List Term} {c : Candidates} {s : Supply} {t : Term}
    (ht : t ∈ ts) (hi : t.IsInstantiated kb settings)
    (h : (instantiateEach kb settings ts c s).1.truncated = false) :
    t ∈ (instantiateEach kb settings ts c s).1.terms := by
  induction ts generalizing c s with
  | nil => cases ht
  | cons w ws ih =>
    rw [instantiateEach] at h ⊢
    split at h
    · cases h
    · next hroom =>
      rw [if_neg hroom]
      rw [State.bind_apply] at h ⊢
      rcases List.mem_cons.mp ht with rfl | ht
      · refine instantiateEach_le.1 t ?_
        rw [hi s]
        exact Distinct.mem_add.mpr (.inr rfl)
      · exact ih ht h

/-! ## writing rows out -/

/-- a candidate after the row variables are written out is one from before in which nothing can be, or
lighter than one in which something can -/
theorem of_mem_expandEach {limit : Nat} {ts : List Term} {c : Candidates} {s : Supply} {u : Term}
    (h : u ∈ (expandEach kb limit ts c s).1.terms) :
    u ∈ c.terms ∨ ∃ t ∈ ts, u = t ∧ t.IsExpanded ∨
      u.expansionWeight < t.expansionWeight ∧ ¬ t.IsExpanded := by
  refine expandEach_keeps (I := fun c' => ∀ u ∈ c'.terms, u ∈ c.terms ∨ ∃ t ∈ ts,
      u = t ∧ t.IsExpanded ∨ u.expansionWeight < t.expansionWeight ∧ ¬ t.IsExpanded)
    (fun _ hc => hc) (fun t ht c' s' _ hc u hu => ?_) (fun u hu => .inl hu) s u h
  rcases Distinct.mem_addAll.mp hu with hu | hu
  · exact hc u hu
  · exact .inr ⟨t, ht, Term.of_mem_expandRows hu⟩

theorem nodup_expandEach {limit : Nat} {ts : List Term} {c : Candidates} (h : c.terms.Nodup)
    (s : Supply) : (expandEach kb limit ts c s).1.terms.Nodup :=
  expandEach_keeps (I := fun c => c.terms.Nodup) (fun _ hc => hc)
    (fun _ _ _ _ _ hc => Distinct.nodup_addAll hc _) h s

/-- writing out more rows takes nothing back -/
theorem expandEach_le {limit : Nat} {ts : List Term} {c : Candidates} {s : Supply} :
    (∀ u ∈ c.terms, u ∈ (expandEach kb limit ts c s).1.terms) ∧
      (c.truncated = true → (expandEach kb limit ts c s).1.truncated = true) := by
  refine expandEach_keeps (I := fun c' => (∀ u ∈ c.terms, u ∈ c'.terms) ∧
      (c.truncated = true → c'.truncated = true))
    (fun _ hc => ⟨hc.1, fun _ => rfl⟩) (fun t _ c' s' _ hc => ?_) ⟨fun _ hu => hu, fun h => h⟩ s
  exact ⟨fun u hu => Distinct.mem_addAll.mpr (.inl (hc.1 u hu)),
    fun h => Bool.or_eq_true_iff.mpr (.inl (hc.2 h))⟩

theorem mem_expandEach {limit : Nat} {ts : List Term} {c : Candidates} {s : Supply} {t : Term}
    (ht : t ∈ ts) (he : t.IsExpanded) (h : (expandEach kb limit ts c s).1.truncated = false) :
    t ∈ (expandEach kb limit ts c s).1.terms := by
  induction ts generalizing c s with
  | nil => cases ht
  | cons w ws ih =>
    rw [expandEach] at h ⊢
    split at h
    · cases h
    · next hroom =>
      rw [if_neg hroom]
      rcases List.mem_cons.mp ht with rfl | ht
      · exact expandEach_le.1 t (Distinct.mem_addAll.mpr (.inr (Term.self_mem_expandRows hroom he s)))
      · exact ih ht h

/-! ## one round -/

theorem round_eq (live : List Term) (s : Supply) :
    round kb settings live s =
      expandEach kb settings.expansionLimit (instantiateEach kb settings live empty s).1.terms
        { (instantiateEach kb settings live empty s).1 with terms := [] }
        (instantiateEach kb settings live empty s).2 := rfl

theorem nodup_round (live : List Term) (s : Supply) : (round kb settings live s).1.terms.Nodup :=
  nodup_expandEach List.nodup_nil _

/-- a candidate after a round is a settled one from before, or lighter than one that is not settled -/
theorem of_mem_round (hkb : kb.Faithful) {live : List Term} {s : Supply} {u : Term}
    (h : u ∈ (round kb settings live s).1.terms) :
    ∃ t ∈ live, u = t ∧ t.IsSettled kb settings ∨
      u.expansionWeight < t.expansionWeight ∧ ¬ t.IsSettled kb settings := by
  rw [round_eq] at h
  rcases of_mem_expandEach h with h | ⟨c, hc, hu⟩
  · cases h
  rcases of_mem_instantiateEach hkb hc with h | ⟨t, ht, hct⟩
  · cases h
  refine ⟨t, ht, ?_⟩
  rcases hct with ⟨rfl, hi⟩ | ⟨hlt, hi⟩
  · rcases hu with ⟨rfl, he⟩ | ⟨hlt, he⟩
    · exact .inl ⟨rfl, hi, he⟩
    · exact .inr ⟨hlt, fun hs => he hs.2⟩
  · refine .inr ⟨?_, fun hs => hi hs.1⟩
    rcases hu with ⟨rfl, _⟩ | ⟨hlt', _⟩
    · exact hlt
    · exact Nat.lt_trans hlt' hlt

/-- a round that leaves nothing out keeps all settled candidates -/
theorem mem_round {live : List Term} {s : Supply} {t : Term} (ht : t ∈ live)
    (hs : t.IsSettled kb settings) (h : (round kb settings live s).1.truncated = false) :
    t ∈ (round kb settings live s).1.terms := by
  rw [round_eq] at h ⊢
  refine mem_expandEach (mem_instantiateEach ht hs.1 ?_) hs.2 h
  cases hc : (instantiateEach kb settings live empty s).1.truncated with
  | false => rfl
  | true =>
    have htruncated := (@expandEach_le kb settings.expansionLimit
      (instantiateEach kb settings live empty s).1.terms
      { (instantiateEach kb settings live empty s).1 with terms := [] }
      (instantiateEach kb settings live empty s).2).2 hc
    rw [htruncated] at h
    cases h

/-! ## all rounds -/

/-- the loop of rounds without a bound: from some candidates and the problems so far it ends with a
result, after a round that left something out or after one that changed nothing -/
inductive Ends (kb : KnowledgeBase) (settings : Settings) :
    List Term → List Problem → Supply → (List Term × List Problem) × Supply → Prop where
  | truncated {live : List Term} {problems : List Problem} {s : Supply} :
    (round kb settings live s).1.truncated = true →
    Ends kb settings live problems s
      (((round kb settings live s).1.terms,
        problems ++ (round kb settings live s).1.problems ++
          [.limitReached settings.expansionLimit]),
        (round kb settings live s).2)
  | unchanged {live : List Term} {problems : List Problem} {s : Supply} :
    (round kb settings live s).1.truncated = false →
    Distinct.sameElements (round kb settings live s).1.terms live = true →
    Ends kb settings live problems s
      (((round kb settings live s).1.terms, problems ++ (round kb settings live s).1.problems),
        (round kb settings live s).2)
  | again {live : List Term} {problems : List Problem} {s : Supply}
    {result : (List Term × List Problem) × Supply} :
    (round kb settings live s).1.truncated = false →
    Distinct.sameElements (round kb settings live s).1.terms live = false →
    Ends kb settings (round kb settings live s).1.terms
      (problems ++ (round kb settings live s).1.problems) (round kb settings live s).2 result →
    Ends kb settings live problems s result

theorem sameElements_iff {xs ys : List Term} :
    Distinct.sameElements xs ys = true ↔ xs.length = ys.length ∧ ∀ x ∈ xs, x ∈ ys := by
  simp [Distinct.sameElements]

/-- no element of a list is missing from one without repetition that has the same elements -/
theorem mem_of_sameElements {xs ys : List Term} (hnodup : xs.Nodup)
    (h : Distinct.sameElements xs ys = true) {y : Term} (hy : y ∈ ys) : y ∈ xs := by
  obtain ⟨hlength, hsub⟩ := sameElements_iff.mp h
  by_cases hmem : y ∈ xs
  · exact hmem
  · have herase : xs ⊆ ys.erase y := fun x hx =>
      (List.mem_erase_of_ne fun he => hmem (by rwa [he] at hx)).mpr (hsub x hx)
    have hle := hnodup.length_le_of_subset herase
    have hpos := List.length_pos_of_mem hy
    rw [List.length_erase_of_mem hy] at hle
    omega

/-- a round over settled candidates leaves something out or changes nothing -/
theorem sameElements_of_settled (hkb : kb.Faithful) {live : List Term} {s : Supply}
    (hnodup : live.Nodup) (hs : ∀ t ∈ live, t.IsSettled kb settings)
    (h : (round kb settings live s).1.truncated = false) :
    Distinct.sameElements (round kb settings live s).1.terms live = true := by
  have hsub : ∀ u ∈ (round kb settings live s).1.terms, u ∈ live := by
    intro u hu
    obtain ⟨t, ht, ⟨rfl, _⟩ | ⟨_, hn⟩⟩ := of_mem_round hkb hu
    · exact ht
    · exact absurd (hs t ht) hn
  have hsup : ∀ t ∈ live, t ∈ (round kb settings live s).1.terms := fun t ht =>
    mem_round ht (hs t ht) h
  refine sameElements_iff.mpr ⟨?_, hsub⟩
  exact Nat.le_antisymm ((nodup_round live s).length_le_of_subset hsub)
    (hnodup.length_le_of_subset hsup)

/-- a round that changes nothing leaves settled candidates: one that is not settled would come from a
heavier one, and that one from a heavier one still -/
theorem settled_of_sameElements (hkb : kb.Faithful) {live : List Term} {s : Supply}
    (h : Distinct.sameElements (round kb settings live s).1.terms live = true) :
    ∀ u ∈ (round kb settings live s).1.terms, u.IsSettled kb settings := by
  intro u hu
  refine Classical.byContradiction fun hunsettled => ?_
  have hclimb : ∀ n, ∃ v ∈ (round kb settings live s).1.terms,
      ¬ v.IsSettled kb settings ∧ n ≤ v.expansionWeight := by
    intro n
    induction n with
    | zero => exact ⟨u, hu, hunsettled, Nat.zero_le _⟩
    | succ n ih =>
      obtain ⟨v, hv, hvs, hn⟩ := ih
      obtain ⟨t, ht, ⟨rfl, hts⟩ | ⟨hlt, hts⟩⟩ := of_mem_round hkb hv
      · exact absurd hts hvs
      · exact ⟨t, mem_of_sameElements (nodup_round live s) h ht, hts, by omega⟩
  obtain ⟨v, hv, _, hheavy⟩ :=
    hclimb ((Term.list (round kb settings live s).1.terms).expansionWeight + 1)
  have := Term.expansionWeight_le_of_mem hv
  omega

theorem rounds_succ (n : Nat) (live : List Term) (problems : List Problem) (s : Supply) :
    rounds kb settings (n + 1) live problems s =
      if (round kb settings live s).1.truncated then
        (((round kb settings live s).1.terms,
          problems ++ (round kb settings live s).1.problems ++
            [.limitReached settings.expansionLimit]),
          (round kb settings live s).2)
      else if Distinct.sameElements (round kb settings live s).1.terms live then
        (((round kb settings live s).1.terms, problems ++ (round kb settings live s).1.problems),
          (round kb settings live s).2)
      else
        rounds kb settings n (round kb settings live s).1.terms
          (problems ++ (round kb settings live s).1.problems) (round kb settings live s).2 := by
  rw [rounds, State.bind_apply]
  split
  · rfl
  · split <;> rfl

/-- what each round keeps holds of the candidates and the problems in the end, whether the last round
has left something out or not -/
theorem rounds_keeps {I : List Term → List Problem → Prop}
    (hlimit : ∀ live problems s, I live problems → (round kb settings live s).1.truncated = true →
      I (round kb settings live s).1.terms (problems ++ (round kb settings live s).1.problems ++
        [.limitReached settings.expansionLimit]))
    (hround : ∀ live problems s, I live problems → (round kb settings live s).1.truncated = false →
      I (round kb settings live s).1.terms (problems ++ (round kb settings live s).1.problems))
    {n : Nat} {live : List Term} {problems : List Problem} (h : I live problems) (s : Supply) :
    I (rounds kb settings n live problems s).1.1 (rounds kb settings n live problems s).1.2 := by
  induction n generalizing live problems s with
  | zero => exact h
  | succ n ih =>
    rw [rounds_succ]
    split
    · next htruncated => exact hlimit live problems s h htruncated
    · next htruncated =>
      have hnext := hround live problems s h (eq_false_of_ne_true htruncated)
      split
      · exact hnext
      · exact ih hnext _

/-- one round more than the weight of the heaviest candidate that is not settled brings the loop to its
end: each round takes weight away from all of them -/
theorem ends_rounds (hkb : kb.Faithful) {n : Nat} {live : List Term} {problems : List Problem}
    {s : Supply} (hnodup : live.Nodup)
    (h : ∀ t ∈ live, ¬ t.IsSettled kb settings → t.expansionWeight ≤ n) :
    Ends kb settings live problems s (rounds kb settings (n + 1) live problems s) := by
  induction n generalizing live problems s with
  | zero =>
    have hsettled : ∀ t ∈ live, t.IsSettled kb settings := fun t ht =>
      Classical.byContradiction fun hs =>
        absurd (h t ht hs) (Nat.not_le.mpr (Term.weight_pos_of_not_settled hs))
    rw [rounds_succ]
    split
    · next htruncated => exact .truncated htruncated
    · next htruncated =>
      rw [Bool.not_eq_true] at htruncated
      have hsame := sameElements_of_settled hkb hnodup hsettled htruncated
      rw [if_pos hsame]
      exact .unchanged htruncated hsame
  | succ n ih =>
    rw [rounds_succ]
    split
    · next htruncated => exact .truncated htruncated
    · next htruncated =>
      rw [Bool.not_eq_true] at htruncated
      split
      · next hsame => exact .unchanged htruncated hsame
      · next hsame =>
        rw [Bool.not_eq_true] at hsame
        refine .again htruncated hsame (ih (nodup_round live s) fun u hu hus => ?_)
        obtain ⟨t, ht, ⟨rfl, hts⟩ | ⟨hlt, hts⟩⟩ := of_mem_round hkb hu
        · exact absurd hts hus
        · have := h t ht hts
          omega

/-- when the loop ends, all candidates are settled unless the limit has been reached -/
theorem settled_of_ends (hkb : kb.Faithful) {live : List Term} {problems : List Problem}
    {s : Supply} {result : (List Term × List Problem) × Supply}
    (h : Ends kb settings live problems s result)
    (hlimit : ∀ p ∈ result.1.2, p.code ≠ "W-EXPANSION-LIMIT") :
    ∀ c ∈ result.1.1, c.IsSettled kb settings := by
  induction h with
  | truncated htruncated => exact absurd rfl (hlimit (.limitReached settings.expansionLimit) (by simp))
  | unchanged htruncated hsame => exact settled_of_sameElements hkb hsame
  | again htruncated hsame _ ih => exact ih hlimit

end Candidates

/-! ## the candidates of a term -/

/-- The loop ends for every term, every knowledge base built by telling, all settings and every supply
of names.  Unless it reports that the limit has been reached, every candidate is settled: there is
nothing to instantiate in it, whatever names are drawn, and it has no row variable, a string literal
and a bare row variable apart. -/
theorem Term.candidates_settled (told : List Term) (settings : Settings) (t : Term) (s : Supply) :
    Candidates.Ends (KnowledgeBase.empty.tellAll told) settings [t] [] s
        (t.candidates (KnowledgeBase.empty.tellAll told) settings s) ∧
      ((∀ p ∈ (t.candidates (KnowledgeBase.empty.tellAll told) settings s).1.2,
          p.code ≠ "W-EXPANSION-LIMIT") →
        ∀ c ∈ (t.candidates (KnowledgeBase.empty.tellAll told) settings s).1.1,
          (settings.holdsPrefix = false →
            ∀ s', (c.instantiatePredicates (KnowledgeBase.empty.tellAll told) s').1 =
              .notApplicable) ∧
          (c.containsRowVariable = true → c.containsQuoted = true ∨ c.isRowVariable = true)) := by
  have hkb := KnowledgeBase.faithful_tellAll told
  have hends : Candidates.Ends (KnowledgeBase.empty.tellAll told) settings [t] [] s
      (t.candidates (KnowledgeBase.empty.tellAll told) settings s) := by
    refine Candidates.ends_rounds hkb (by simp) fun u hu _ => ?_
    exact Nat.le_of_eq (by rw [List.mem_singleton.mp hu])
  refine ⟨hends, fun hlimit c hc => ?_⟩
  obtain ⟨hinstantiated, hexpanded⟩ := Candidates.settled_of_ends hkb hends hlimit c hc
  refine ⟨fun halone s' => ?_, hexpanded⟩
  have := hinstantiated s'
  rwa [Candidates.outcome, if_neg (by simp [halone])] at this

end OntologyPrep
