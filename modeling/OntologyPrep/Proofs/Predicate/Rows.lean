import OntologyPrep.Predicate.Instantiation
import OntologyPrep.Proofs.Knowledge.Matching

/-!
# Rows of a join

The rows of a join for a variable are answers to a question (`Join.Answers`), so that each has a value
for the variable and binds variables to terms without variables (`Join.IsFor`).
`Term.exists_answers_of_mem_joins` and `Term.exists_of_mem_joins` say that every join of a formula is for
one of its predicate variables, and `Term.joins_ne_nil` that there is one if a variable is applied.
-/

namespace OntologyPrep

/-- every row is an answer to some question about the variable -/
def Join.Answers (kb : KnowledgeBase) (j : Join) (name : String) : Prop :=
  ∀ row ∈ j.rows, ∃ l, row ∈ kb.rowsFor name l

/-- every row gives the variable a value, and all values are without variables -/
def Join.IsFor (j : Join) (name : String) : Prop :=
  ∀ row ∈ j.rows, row.Ground ∧ ∃ v, row[name]? = some v

namespace Join

variable {kb : KnowledgeBase}

theorem of_mem_rowsFor (hkb : kb.Faithful) {name : String} {l : Literal} {row : Bindings}
    (h : row ∈ kb.rowsFor name l) : row.Ground ∧ ∃ v, row[name]? = some v := by
  obtain ⟨hrow, hname⟩ := List.mem_filter.mp h
  obtain ⟨t, ht, hb⟩ := List.mem_filterMap.mp hrow
  refine ⟨Literal.ground_bindings? (hkb.containsVariable_of_mem_ask ht) hb, ?_⟩
  obtain ⟨v, hv, _⟩ := (Option.any_eq_true _ _).mp hname
  exact ⟨v, hv⟩

theorem Answers.isFor (hkb : kb.Faithful) {j : Join} {name : String} (h : j.Answers kb name) :
    j.IsFor name := by
  intro row hrow
  obtain ⟨l, hl⟩ := h row hrow
  exact of_mem_rowsFor hkb hl

theorem answers_add {name : String} {j : Option Join} {l : Literal}
    (hj : ∀ i, j = some i → i.Answers kb name) :
    ∀ i, add j l (kb.rowsFor name l) = some i → i.Answers kb name := by
  intro i hi
  unfold add at hi
  split at hi
  · exact hj i hi
  · next hrows =>
    cases hi
    exact fun r hr => ⟨l, hrows ▸ hr⟩
  · cases hi
    intro row hrow
    exact hj _ rfl row (List.mem_filter.mp hrow).1

/-- the join for a variable is made of answers to questions about it -/
theorem answers_ofTemplates? {name : String} {templates : List Literal} {j : Join}
    (h : ofTemplates? kb name templates = some j) : j.Answers kb name := by
  obtain ⟨h, _⟩ := Option.filter_eq_some_iff.mp h
  have hfold : ∀ (ls : List Literal) (i : Option Join), (∀ k, i = some k → k.Answers kb name) →
      ∀ k, ls.foldl (fun j l => add j l (kb.rowsFor name l)) i = some k → k.Answers kb name := by
    intro ls
    induction ls with
    | nil => intro i hi k hk; exact hi k hk
    | cons l ls ih =>
      intro i hi k hk
      exact ih _ (answers_add hi) k hk
  exact hfold _ none (fun k hk => by cases hk) j h

theorem answers_ofVariable {form : ClausalForm} {name : String} {use : PredicateUse} {j : Join}
    (h : ofVariable kb form name use = .ok (some j)) : j.Answers kb name := by
  unfold ofVariable at h
  split at h
  · next i hi =>
    cases h
    exact answers_ofTemplates? hi
  · split at h <;> cases h

end Join

namespace Term

variable {kb : KnowledgeBase} {form : ClausalForm} {vars : PredicateVariables} {js : List Join}

/-- computations that all succeed: each result comes from an element, and each element has one -/
theorem mem_of_mapM_ok {α β ε : Type} {f : α → Except ε β} {xs : List α} {ys : List β}
    (h : xs.mapM f = .ok ys) :
    (∀ y ∈ ys, ∃ x ∈ xs, f x = .ok y) ∧ ∀ x ∈ xs, ∃ y ∈ ys, f x = .ok y := by
  induction xs generalizing ys with
  | nil =>
    cases h
    constructor
    · intro y hy
      cases hy
    · intro x hx
      cases hx
  | cons x xs ih =>
    rw [List.mapM_cons] at h
    cases hx : f x with
    | error e =>
      rw [hx] at h
      cases h
    | ok y =>
      cases hxs : xs.mapM f with
      | error e =>
        rw [hx, hxs] at h
        cases h
      | ok zs =>
        rw [hx, hxs] at h
        cases h
        obtain ⟨h1, h2⟩ := ih hxs
        constructor
        · intro z hz
          rcases List.mem_cons.mp hz with rfl | hz
          · exact ⟨x, by simp, hx⟩
          · obtain ⟨w, hw, he⟩ := h1 z hz
            exact ⟨w, by simp [hw], he⟩
        · intro w hw
          rcases List.mem_cons.mp hw with rfl | hw
          · exact ⟨y, by simp, hx⟩
          · obtain ⟨z, hz, he⟩ := h2 w hw
            exact ⟨z, by simp [hz], he⟩

theorem joins_eq_ok_iff : joins kb form vars = .ok js ↔
    ∃ found, vars.toList.mapM (fun v => Join.ofVariable kb form v.1 v.2) = .ok found ∧
      js = (found.filterMap id).mergeSort fun i j => i.rows.length ≤ j.rows.length := by
  unfold joins
  cases vars.toList.mapM (fun v => Join.ofVariable kb form v.1 v.2) with
  | error e =>
    constructor
    · intro h
      cases h
    · rintro ⟨_, h, _⟩
      cases h
  | ok found =>
    constructor
    · intro h
      cases h
      exact ⟨found, rfl, rfl⟩
    · rintro ⟨_, h, rfl⟩
      cases h
      rfl

/-- every join is made of answers to questions about one of the variables -/
theorem exists_answers_of_mem_joins (h : joins kb form vars = .ok js) {j : Join} (hj : j ∈ js) :
    ∃ v ∈ vars.toList, j.Answers kb v.1 := by
  obtain ⟨found, hfound, rfl⟩ := joins_eq_ok_iff.mp h
  obtain ⟨i, hi, he⟩ := List.mem_filterMap.mp (List.mem_mergeSort.mp hj)
  obtain rfl : i = some j := he
  obtain ⟨v, hv, hof⟩ := (mem_of_mapM_ok hfound).1 _ hi
  exact ⟨v, hv, Join.answers_ofVariable hof⟩

/-- every join is for one of the variables -/
theorem exists_of_mem_joins (hkb : kb.Faithful) (h : joins kb form vars = .ok js) {j : Join}
    (hj : j ∈ js) : ∃ v ∈ vars.toList, j.IsFor v.1 := by
  obtain ⟨v, hv, hanswers⟩ := exists_answers_of_mem_joins h hj
  exact ⟨v, hv, hanswers.isFor hkb⟩

/-- there is a join if a variable is applied -/
theorem joins_ne_nil (h : joins kb form vars = .ok js) {v : String × PredicateUse}
    (hv : v ∈ vars.toList) (happlied : v.2.isHead = true) : js ≠ [] := by
  obtain ⟨found, hfound, rfl⟩ := joins_eq_ok_iff.mp h
  obtain ⟨i, hi, hof⟩ := (mem_of_mapM_ok hfound).2 v hv
  unfold Join.ofVariable at hof
  split at hof
  · next j hj =>
    cases hof
    refine List.ne_nil_of_mem (a := j) (List.mem_mergeSort.mpr ?_)
    exact List.mem_filterMap.mpr ⟨some j, hi, rfl⟩
  · rw [if_pos happlied] at hof
    cases hof

end Term

end OntologyPrep
