import OntologyPrep.Proofs.Preparation.Limit

/-!
# No formula disappears silently

* `Candidates.Shown`              something is left, or there is something to tell about what is not;
* `Candidates.shown_round`        a round over some candidates comes out so;
* `Candidates.rounds_ne_nil`      hence the loop finds candidates or problems;
* `Formula.prepare_accounts`      a preparation that passes nothing on tells why, and there is one verdict
                                  for each candidate and each missing fact.

A part of a round that looks at a term at all has something to show for the last one that it looked at,
whatever became of those before: an instance, an expansion, a problem, or the flag.
-/

namespace OntologyPrep

namespace Candidates

variable {kb : KnowledgeBase} {settings : Settings}

/-- something is left, or there is something to tell about what is not -/
def Shown (c : Candidates) : Prop := c.terms ≠ [] ∨ c.truncated = true ∨ c.problems ≠ []

theorem ne_nil_addAll {xs ys : List Term} (h : xs ≠ [] ∨ ys ≠ []) : Distinct.addAll xs ys ≠ [] := by
  rcases h with h | h <;> obtain ⟨x, hx⟩ := List.exists_mem_of_ne_nil _ h
  · exact List.ne_nil_of_mem (Distinct.mem_addAll.mpr (.inl hx))
  · exact List.ne_nil_of_mem (Distinct.mem_addAll.mpr (.inr hx))

/-! ## instantiating -/

/-- there is always an instance if there is no rejection -/
theorem outcome_ne_nil (t : Term) (s : Supply) : (outcome kb settings t s).1 ≠ .instantiated [] := by
  intro h
  unfold outcome at h
  split at h
  · cases h
  · unfold Term.instantiatePredicates at h
    split at h
    · simp only [State.bind_apply, State.pure_apply, Term.instances] at h
      split at h
      · cases h
      · split at h
        · cases h
        · next hne => exact hne (List.map_eq_nil_iff.mp (Outcome.instantiated.inj h))
    · cases h

theorem shown_addOutcome {c : Candidates} {limit : Nat} (hroom : c.room limit ≠ 0) (t : Term)
    {o : Outcome} (ho : o ≠ .instantiated []) : (c.addOutcome limit t o).Shown := by
  cases o with
  | instantiated ts =>
    have hts : ts ≠ [] := fun h => ho (congrArg Outcome.instantiated h)
    refine .inl (ne_nil_addAll (.inr fun h => ?_))
    rcases List.take_eq_nil_iff.mp h with h | h
    · exact hroom h
    · exact hts h
  | notApplicable => exact .inl (@ne_nil_addAll c.terms [t] (.inr (List.cons_ne_nil _ _)))
  | rejected reason =>
    exact .inr (.inr (List.append_ne_nil_of_right_ne_nil _ (List.cons_ne_nil _ _)))

theorem shown_instantiateEach {ts : List Term} {c : Candidates} (s : Supply)
    (h : c.Shown ∨ ts ≠ []) : (instantiateEach kb settings ts c s).1.Shown := by
  induction ts generalizing c s with
  | nil => exact h.resolve_right (fun hne => hne rfl)
  | cons t ts ih =>
    rw [instantiateEach]
    split
    · exact .inr (.inl rfl)
    · next hroom => exact ih _ (.inl (shown_addOutcome hroom t (outcome_ne_nil t s)))

/-! ## writing rows out -/

theorem shown_expandEach {limit : Nat} {ts : List Term} {c : Candidates} (s : Supply)
    (h : c.Shown ∨ ts ≠ []) : (expandEach kb limit ts c s).1.Shown := by
  induction ts generalizing c s with
  | nil => exact h.resolve_right (fun hne => hne rfl)
  | cons t ts ih =>
    rw [expandEach]
    split
    · exact .inr (.inl rfl)
    · next hroom =>
      exact ih _ (.inl (.inl (ne_nil_addAll (.inr (Term.expandRows_ne_nil hroom t s)))))

/-! ## rounds -/

theorem shown_round {live : List Term} (hlive : live ≠ []) (s : Supply) :
    (round kb settings live s).1.Shown := by
  rw [round_eq]
  refine shown_expandEach _ ?_
  have hfirst : (instantiateEach kb settings live empty s).1.Shown :=
    shown_instantiateEach s (.inr hlive)
  rcases hfirst with hterms | htold
  · exact .inr hterms
  · exact .inl (.inr htold)

/-- the loop finds candidates or problems -/
theorem rounds_ne_nil {n : Nat} {live : List Term} {problems : List Problem} {s : Supply}
    (h : live ≠ [] ∨ problems ≠ []) :
    (rounds kb settings n live problems s).1.1 ≠ [] ∨
      (rounds kb settings n live problems s).1.2 ≠ [] := by
  refine rounds_keeps (I := fun live problems => live ≠ [] ∨ problems ≠ [])
    (fun live problems s _ _ => .inr ?_) (fun live problems s h htruncated => ?_) h s
  · exact List.append_ne_nil_of_right_ne_nil _ (List.cons_ne_nil _ _)
  · rcases h with hlive | hproblems
    · exact (shown_round hlive s).imp_right fun h =>
        List.append_ne_nil_of_right_ne_nil _ (h.resolve_left (by simp [htruncated]))
    · exact .inr (List.append_ne_nil_of_left_ne_nil hproblems _)

theorem nodup_rounds {n : Nat} {live : List Term} (problems : List Problem) (s : Supply)
    (h : live.Nodup) : (rounds kb settings n live problems s).1.1.Nodup :=
  rounds_keeps (I := fun live (_ : List Problem) => live.Nodup) (fun live _ s _ _ => nodup_round live s)
    (fun live _ s _ _ => nodup_round live s) h s

end Candidates

/-! ## verdicts -/

/-- the diagnostic is about a candidate that is not passed on -/
def Diagnostic.isVerdict (d : Diagnostic) : Bool :=
  d.code = "W-UNSUITABLE" || d.code = "E-ARITY"

namespace Problem

/-- the problem is about a candidate that is not passed on -/
def isVerdict (p : Problem) : Bool := p.code = "W-UNSUITABLE" || p.code = "E-ARITY"

end Problem

theorem Term.isVerdict_of_unsuitable? {kb : KnowledgeBase} {settings : Settings} {query : Bool}
    {t : Term} {p : Problem} (h : t.unsuitable? kb settings query = some p) :
    p.isVerdict = true := by
  unfold unsuitable? at h
  split at h
  · exact Option.some.inj h ▸ rfl
  · split at h
    · exact Option.some.inj h ▸ rfl
    · split at h
      · split at h
        · cases h
        · exact Option.some.inj h ▸ rfl
      · cases h

namespace Candidates

variable {kb : KnowledgeBase} {settings : Settings}

theorem not_isVerdict_addOutcome {c : Candidates} (h : ∀ p ∈ c.problems, p.isVerdict = false)
    (limit : Nat) (t : Term) (o : Outcome) :
    ∀ p ∈ (c.addOutcome limit t o).problems, p.isVerdict = false := by
  cases o with
  | instantiated ts => exact h
  | notApplicable => exact h
  | rejected reason =>
    intro p hp
    rcases List.mem_append.mp hp with hp | hp
    · exact h p hp
    · exact List.mem_singleton.mp hp ▸ rfl

/-- no problem on the way to the candidates is about one of them -/
theorem not_isVerdict_instantiateEach {ts : List Term} {c : Candidates} {s : Supply}
    (h : ∀ p ∈ c.problems, p.isVerdict = false) :
    ∀ p ∈ (instantiateEach kb settings ts c s).1.problems, p.isVerdict = false :=
  instantiateEach_keeps (I := fun c => ∀ p ∈ c.problems, p.isVerdict = false) (fun _ hc => hc)
    (fun t _ _ _ _ hc => not_isVerdict_addOutcome hc settings.expansionLimit t _) h s

theorem problems_expandEach (limit : Nat) (ts : List Term) (c : Candidates) (s : Supply) :
    (expandEach kb limit ts c s).1.problems = c.problems :=
  expandEach_keeps (I := fun c' => c'.problems = c.problems) (fun _ hc => hc)
    (fun _ _ _ _ _ hc => hc) rfl s

theorem not_isVerdict_round (live : List Term) (s : Supply) :
    ∀ p ∈ (round kb settings live s).1.problems, p.isVerdict = false := by
  rw [round_eq, problems_expandEach]
  exact not_isVerdict_instantiateEach (c := empty) fun p hp => absurd hp List.not_mem_nil

theorem not_isVerdict_rounds {n : Nat} {live : List Term} {problems : List Problem} {s : Supply}
    (h : ∀ p ∈ problems, p.isVerdict = false) :
    ∀ p ∈ (rounds kb settings n live problems s).1.2, p.isVerdict = false := by
  have hnext : ∀ (live : List Term) (problems : List Problem) (s : Supply),
      (∀ p ∈ problems, p.isVerdict = false) →
      ∀ p ∈ problems ++ (round kb settings live s).1.problems, p.isVerdict = false :=
    fun live problems s h => List.forall_mem_append.mpr ⟨h, not_isVerdict_round live s⟩
  refine rounds_keeps (I := fun (_ : List Term) problems => ∀ p ∈ problems, p.isVerdict = false)
    (fun live problems s h _ => ?_) (fun live problems s h _ => hnext live problems s h) h s
  refine List.forall_mem_append.mpr ⟨hnext live problems s h, fun p hp => ?_⟩
  exact List.mem_singleton.mp hp ▸ rfl

end Candidates

/-! ## missing facts -/

theorem Term.sortalFact_injective : Function.Injective Term.sortalFact := by
  intro a b h
  simpa [Term.sortalFact, Term.app] using h

/-- the missing facts are about some of the classes, each once, and none is among the formulas -/
theorem KnowledgeBase.missingAmong_spec (kb : KnowledgeBase) (live : List Term)
    {classes : List String} (h : classes.Nodup) (cache : TypeCache) :
    (kb.missingAmong live classes cache).1.Nodup ∧
      ∀ fact ∈ (kb.missingAmong live classes cache).1,
        fact ∉ live ∧ ∃ cls ∈ classes, fact = Term.sortalFact cls := by
  induction classes generalizing cache with
  | nil => exact ⟨List.nodup_nil, fun fact hfact => absurd hfact List.not_mem_nil⟩
  | cons cls classes ih =>
    obtain ⟨hcls, hclasses⟩ := List.nodup_cons.mp h
    rw [missingAmong]
    split
    · refine (ih hclasses cache).imp_right fun hfacts fact hfact => ?_
      obtain ⟨hnew, c, hc, he⟩ := hfacts fact hfact
      exact ⟨hnew, c, List.mem_cons_of_mem _ hc, he⟩
    · next hmissing =>
      obtain ⟨hnodup, hfacts⟩ := ih hclasses
        (cache.insert (TypeCache.sortalKey cls) (some setOrClass))
      refine ⟨List.nodup_cons.mpr ⟨fun hmem => ?_, hnodup⟩, fun fact hfact => ?_⟩
      · obtain ⟨_, c, hc, he⟩ := hfacts _ hmem
        exact hcls (Term.sortalFact_injective he ▸ hc)
      · rcases List.mem_cons.mp hfact with rfl | hfact
        · refine ⟨fun hlive => hmissing ?_, cls, List.mem_cons_self, rfl⟩
          rw [List.contains_iff_mem.mpr hlive]
          rfl
        · obtain ⟨hnew, c, hc, he⟩ := hfacts fact hfact
          exact ⟨hnew, c, List.mem_cons_of_mem _ hc, he⟩

namespace Term

variable {kb : KnowledgeBase} {settings : Settings}

theorem nodup_found (t : Term) (σ : Session) : (t.found kb settings σ).1.Nodup :=
  Candidates.nodup_rounds _ _ (by simp)

/-- a missing fact is not a candidate, and is missing once -/
theorem nodup_append_facts (query : Bool) {live : List Term} (h : live.Nodup) (σ : Session) :
    (live ++ (facts kb query live σ).1).Nodup := by
  cases query with
  | true => exact (List.append_nil live).symm ▸ h
  | false =>
    have hclasses : (classConstants live).Nodup := Distinct.nodup_addAll List.nodup_nil _
    obtain ⟨hnodup, hfacts⟩ := kb.missingAmong_spec live hclasses σ.cache
    exact List.nodup_append.mpr ⟨h, hnodup, fun a ha b hb hab => (hfacts b hb).1 (hab ▸ ha)⟩

/-- the missing facts do not depend on the supply of names -/
theorem facts_supply (query : Bool) (live : List Term) (σ : Session) (s : Supply) :
    (facts kb query live { σ with supply := s }).1 = (facts kb query live σ).1 := by
  cases query <;> rfl

theorem length_finals (query : Bool) (live : List Term) (σ : Session) :
    (finals kb settings query live σ).1.length =
      live.length + (facts kb query live σ).1.length := by
  rw [finals, State.length_mapM, List.length_append]

/-- there is one verdict for each candidate and each missing fact, and something comes of a term -/
theorem verdicts_prepare (kb : KnowledgeBase) (settings : Settings) (query : Bool) (t : Term)
    (σ : Session) :
    (t.prepare kb settings query σ).1.accepted.length +
        (t.prepare kb settings query σ).1.problems.countP Problem.isVerdict =
      (t.found kb settings σ).1.length +
        (facts kb query (t.found kb settings σ).1 σ).1.length ∧
    ((t.prepare kb settings query σ).1.accepted = [] →
      (t.prepare kb settings query σ).1.problems ≠ []) := by
  have hfound : ∀ p ∈ (t.found kb settings σ).2, ¬ p.isVerdict = true := fun p hp =>
    Bool.eq_false_iff.mp (Candidates.not_isVerdict_rounds (fun p hp => absurd hp List.not_mem_nil)
      p hp)
  rw [prepare_eq, judge_fst]
  generalize hfinals : (finals kb settings query (t.found kb settings σ).1 _).1 = ts
  have hlength : ts.length = (t.found kb settings σ).1.length +
      (facts kb query (t.found kb settings σ).1 σ).1.length := by
    rw [← hfinals, length_finals, facts_supply]
  have hverdicts : (ts.filterMap (unsuitable? kb settings query)).countP Problem.isVerdict =
      (ts.filterMap (unsuitable? kb settings query)).length := by
    refine List.countP_eq_length.mpr fun p hp => ?_
    obtain ⟨u, _, hu⟩ := List.mem_filterMap.mp hp
    exact isVerdict_of_unsuitable? hu
  have hsuitable := length_suitable kb settings query ts
  have hsomething : (t.found kb settings σ).1 ≠ [] ∨ (t.found kb settings σ).2 ≠ [] :=
    Candidates.rounds_ne_nil (.inl (List.cons_ne_nil _ []))
  refine ⟨?_, fun hnone => ?_⟩
  · rw [List.countP_append, List.countP_eq_zero.mpr hfound, hverdicts, ← hlength, Nat.zero_add]
    exact hsuitable
  · rcases hsomething with hterms | hproblems
    · have hall : (ts.filter fun t => (t.unsuitable? kb settings query).isNone) = [] := hnone
      have hpos : 0 < ts.length := by
        rw [hlength]
        exact Nat.add_pos_left (List.length_pos_iff.mpr hterms) _
      refine List.append_ne_nil_of_right_ne_nil _ (List.length_pos_iff.mp ?_)
      rw [← hsuitable, hall, List.length_nil, Nat.zero_add] at hpos
      exact hpos
    · exact List.append_ne_nil_of_left_ne_nil hproblems _

end Term

/-! ## the preparation of a formula -/

namespace Formula

/-- A preparation adds diagnostics to those of its formula, at least one if it passes nothing on.  If the
text is a term, the number of formulas passed on and the number of diagnostics about dropped ones make up
the number of candidates at the end of the loop and of facts missing about their classes, no two of which
are the same. -/
theorem prepare_accounts (kb : KnowledgeBase) (settings : Settings) (query : Bool) (f : Formula)
    (σ : Session) :
    ∃ added, (f.prepare kb settings query σ).1.2.diagnostics = f.diagnostics ++ added ∧
      ((f.prepare kb settings query σ).1.1 = [] → added ≠ []) ∧
      ∀ t, Balance.isBalanced f.text = true → f.term = some t →
        ((t.found kb settings σ).1 ++
          (Term.facts kb query (t.found kb settings σ).1 σ).1).Nodup ∧
        (f.prepare kb settings query σ).1.1.length + added.countP Diagnostic.isVerdict =
          (t.found kb settings σ).1.length +
            (Term.facts kb query (t.found kb settings σ).1 σ).1.length := by
  refine ⟨_, diagnostics_prepare kb settings query f σ, fun hnone hnil => ?_,
    fun t hbalanced hterm => ⟨Term.nodup_append_facts query (t.nodup_found σ) σ, ?_⟩⟩
  · have haccepted : (f.prepareText kb settings query σ).1.accepted = [] :=
      List.map_eq_nil_iff.mp hnone
    have hproblems : (f.prepareText kb settings query σ).1.problems = [] :=
      List.map_eq_nil_iff.mp hnil
    rcases f.prepareText_cases with ⟨t, hbalanced, hterm⟩ | ⟨p, _, hrefused⟩
    · rw [prepareText_of_term hbalanced hterm] at haccepted hproblems
      exact (t.verdicts_prepare kb settings query σ).2 haccepted hproblems
    · rw [hrefused] at hproblems
      exact List.cons_ne_nil p [] hproblems
  · rw [← (t.verdicts_prepare kb settings query σ).1, prepare_eq, List.length_map,
      List.countP_map, prepareText_of_term hbalanced hterm]
    rfl

/-- a statement about an unknown individual is the only candidate, and it is dropped -/
theorem prepare_accounts_unknown :
    ∃ added, ((ofText "(p ?X)").prepare .empty {} false (.start ⟨0⟩)).1.2.diagnostics =
        (ofText "(p ?X)").diagnostics ++ added ∧ added ≠ [] ∧
      ((ofText "(p ?X)").prepare .empty {} false (.start ⟨0⟩)).1.1.length +
        added.countP Diagnostic.isVerdict = 1 := by
  obtain ⟨added, hadded, hnone, hcount⟩ :=
    prepare_accounts .empty {} false (ofText "(p ?X)") (.start ⟨0⟩)
  obtain ⟨_, hsum⟩ := hcount (.app "p" [.atom "?X"]) (by cbv) (by cbv)
  have hdropped : ((ofText "(p ?X)").prepareText .empty {} false (.start ⟨0⟩)).1.accepted = [] := by
    cbv
  exact ⟨added, hadded, hnone (List.map_eq_nil_iff.mpr hdropped), hsum.trans (by cbv)⟩

end Formula

end OntologyPrep
