import OntologyPrep.Proofs.Meaning.Formula
import OntologyPrep.Proofs.Predicate.Weight

/-!
# What is lost with equal terms

After each join only the first of several instances with equal terms is kept, with its values; the rows
of the next join have to agree with these.  `Instance.runApart` keeps all pairs of a term and values.

* `Instance.mem_runApart_of_mem_run`   merging adds nothing;
* `Instance.exists_mem_run_iff`        nothing is lost if equal terms come with equal values before every
                                       join but the first;
* `Instance.not_exists_mem_run`        an instance can be lost if they do not;
* `Term.mem_terms_iff_of_settled`      the same for the terms that a formula is replaced by, and so
* `Term.mem_terms_iff_of_length_le`    nothing is lost where there is one join.
-/

namespace OntologyPrep

variable {kb : KnowledgeBase} {literals : List Literal} {rows : List Bindings}

namespace Instance

/-! ## keeping all pairs -/

/-- the instances after one join, those with equal terms included -/
def stepApart (kb : KnowledgeBase) (literals : List Literal) (rows : List Bindings)
    (found : List Instance) : List Instance := found.flatMap (successors kb literals rows)

/-- the instances after some joins, those with equal terms included -/
def runApart (kb : KnowledgeBase) : List Join → List Literal → List Instance → List Instance
  | [], _, found => found
  | j :: js, literals, found =>
    let literals := literals ++ j.used
    runApart kb js literals (stepApart kb literals j.rows found)

/-! ## alike instances -/

/-- the two have the same term and give every variable the same value -/
structure Alike (i j : Instance) : Prop where
  term : i.term = j.term
  values : i.values.Equiv j.values

namespace Alike

variable {i j : Instance}

theorem agrees (h : Alike i j) (row : Bindings) :
    Bindings.agrees i.values row = Bindings.agrees j.values row := by
  simp only [Bindings.agrees, h.values.getElem?_eq]

theorem assign (h : Alike i j) (name : String) (value : Term) :
    Alike (i.assign name value) (j.assign name value) := by
  unfold Instance.assign
  rw [h.values.contains_eq]
  split
  · exact h
  · exact ⟨by rw [h.term], h.values.insert name value⟩

theorem foldl (h : Alike i j) (ps : List (String × Term)) :
    Alike (ps.foldl (fun i p => i.assign p.1 p.2) i) (ps.foldl (fun i p => i.assign p.1 p.2) j) := by
  induction ps generalizing i j with
  | nil => exact h
  | cons p ps ih => exact ih (h.assign p.1 p.2)

theorem extend (h : Alike i j) (literals : List Literal) (row : Bindings) :
    Alike (i.extend kb literals row) (j.extend kb literals row) := by
  have hfold := h.foldl row.toList
  have hconfirmed : ∀ {v w : Bindings}, v.Equiv w → kb.confirmed literals v = kb.confirmed literals w := by
    intro v w hvw
    simp only [KnowledgeBase.confirmed, Literal.assign, hvw.toList_eq]
  refine ⟨?_, hfold.values⟩
  show Term.simplify _ _ = Term.simplify _ _
  rw [hfold.term, hconfirmed hfold.values]

/-- alike instances have alike successors -/
theorem exists_mem_successors (h : Alike i j) {k : Instance}
    (hk : k ∈ successors kb literals rows i) :
    ∃ m ∈ successors kb literals rows j, Alike k m := by
  obtain ⟨hk, harity⟩ := List.mem_filter.mp hk
  obtain ⟨row, hrow, rfl⟩ := List.mem_map.mp hk
  obtain ⟨hrow, hagrees⟩ := List.mem_filter.mp hrow
  have halike : Alike (i.extend kb literals row) (j.extend kb literals row) := h.extend literals row
  refine ⟨_, List.mem_filter.mpr ⟨List.mem_map_of_mem (List.mem_filter.mpr ⟨hrow, ?_⟩), ?_⟩, halike⟩
  · rw [← h.agrees row]
    exact hagrees
  · rw [← halike.term]
    exact harity

end Alike

/-! ## one join -/

/-- every term keeps an instance when equal terms are merged -/
theorem exists_mem_foldl_addNew (js found : List Instance) :
    (∀ i ∈ found, i ∈ js.foldl addNew found) ∧
      ∀ j ∈ js, ∃ i ∈ js.foldl addNew found, i.term = j.term := by
  induction js generalizing found with
  | nil => exact ⟨fun _ h => h, fun _ h => by cases h⟩
  | cons j js ih =>
    obtain ⟨hkept, hrest⟩ := ih (addNew found j)
    have hadd : (∀ i ∈ found, i ∈ addNew found j) ∧ ∃ i ∈ addNew found j, i.term = j.term := by
      unfold addNew
      split
      · next h =>
        obtain ⟨i, hi, he⟩ := List.any_eq_true.mp h
        exact ⟨fun _ h => h, i, hi, of_decide_eq_true he⟩
      · exact ⟨fun _ h => List.mem_append_left _ h, j, by simp, rfl⟩
    refine ⟨fun i hi => hkept i (hadd.1 i hi), fun k hk => ?_⟩
    rcases List.mem_cons.mp hk with rfl | hk
    · obtain ⟨i, hi, he⟩ := hadd.2
      exact ⟨i, hkept i hi, he⟩
    · exact hrest k hk

variable {found all : List Instance}

theorem step_subset (h : found ⊆ all) :
    step kb literals rows found ⊆ stepApart kb literals rows all := by
  intro k hk
  have hk := (mem_of_mem_foldl_addNew hk).resolve_left List.not_mem_nil
  obtain ⟨i, hi, hk⟩ := List.mem_flatMap.mp hk
  exact List.mem_flatMap.mpr ⟨i, h hi, hk⟩

/-- each instance of the second list is alike to one of the first list -/
def Covers (found all : List Instance) : Prop := ∀ i ∈ all, ∃ j ∈ found, Alike i j

theorem Covers.refl (found : List Instance) : Covers found found := fun i hi => ⟨i, hi, rfl, .rfl⟩

/-- equal terms come with equal values -/
def Settled (all : List Instance) : Prop :=
  ∀ i ∈ all, ∀ j ∈ all, i.term = j.term → i.values.Equiv j.values

/-- where nothing has been lost before a join, every term after it is there -/
theorem Covers.exists_mem_step (h : Covers found all) {k : Instance}
    (hk : k ∈ stepApart kb literals rows all) :
    ∃ m ∈ step kb literals rows found, m.term = k.term := by
  obtain ⟨i, hi, hk⟩ := List.mem_flatMap.mp hk
  obtain ⟨j, hj, halike⟩ := h i hi
  obtain ⟨m, hm, hkm⟩ := halike.exists_mem_successors hk
  obtain ⟨n, hn, he⟩ := (exists_mem_foldl_addNew _ []).2 m (List.mem_flatMap.mpr ⟨j, hj, hm⟩)
  exact ⟨n, hn, he.trans hkm.term.symm⟩

/-- where equal terms have equal values, the first of them stands for all -/
theorem Covers.step (h : Covers found all) (hsub : found ⊆ all)
    (hsettled : Settled (stepApart kb literals rows all)) :
    Covers (step kb literals rows found) (stepApart kb literals rows all) := by
  intro k hk
  obtain ⟨m, hm, he⟩ := h.exists_mem_step hk
  exact ⟨m, hm, he.symm, hsettled k hk m (step_subset hsub hm) he.symm⟩

/-! ## all joins -/

/-- merging adds nothing -/
theorem mem_runApart_of_mem_run {js : List Join} (hsub : found ⊆ all) {k : Instance}
    (h : k ∈ run kb js literals found) : k ∈ runApart kb js literals all := by
  induction js generalizing literals found all with
  | nil => exact hsub h
  | cons j js ih => exact ih (step_subset hsub) h

/-- nothing is lost if equal terms have equal values between the joins -/
theorem exists_mem_run_iff {js : List Join} (hsub : found ⊆ all) (hcovers : Covers found all)
    (hsettled : ∀ js₁ js₂, js = js₁ ++ js₂ → js₁ ≠ [] → js₂ ≠ [] →
      Settled (runApart kb js₁ literals all)) (t : Term) :
    (∃ i ∈ run kb js literals found, i.term = t) ↔
      ∃ i ∈ runApart kb js literals all, i.term = t := by
  constructor
  · rintro ⟨i, hi, ht⟩
    exact ⟨i, mem_runApart_of_mem_run hsub hi, ht⟩
  induction js generalizing literals found all with
  | nil =>
    rintro ⟨i, hi, rfl⟩
    obtain ⟨j, hj, halike⟩ := hcovers i hi
    exact ⟨j, hj, halike.term.symm⟩
  | cons j js ih =>
    cases js with
    | nil =>
      rintro ⟨i, hi, rfl⟩
      exact hcovers.exists_mem_step hi
    | cons j' js =>
      refine ih (step_subset hsub) (hcovers.step hsub ?_) fun js₁ js₂ hjs hne₁ hne₂ => ?_
      · exact hsettled [j] (j' :: js) rfl (by simp) (by simp)
      · exact hsettled (j :: js₁) js₂ (by rw [hjs, List.cons_append]) (by simp) hne₂

/-! ## what is lost -/

section

open Term

theorem assign_of_free {i : Instance} {name : String} {value : Term}
    (hvalues : i.values.contains name = false) (hfree : name ∈ i.term.freeVariables) :
    i.assign name value = ⟨i.term.substitute name value, i.values.insert name value⟩ := by
  rw [Instance.assign, if_neg (by simp [hvalues]), Term.assign_of_mem value hfree]

theorem assign_of_bound {i : Instance} {name : String} {value t : Term}
    (hvalues : i.values.contains name = false) (hfree : name ∉ i.term.freeVariables)
    (hbound : Term.assignBound? name value i.term = some t) :
    i.assign name value = ⟨t, i.values.insert name value⟩ := by
  rw [Instance.assign, if_neg (by simp [hvalues]), Term.assign_of_not_mem value hfree, hbound]
  rfl

theorem assign_of_contains {i : Instance} {name : String} (value : Term)
    (hvalues : i.values.contains name = true) : i.assign name value = i := if_pos hvalues

/-- `(=> (relation value second) (value a))` -/
def relatedApplied (relation value second : String) : Term :=
  implies (app relation [.atom value, .atom second]) (app value [.atom "a"])

/-- the value applied if it is related to anything -/
def appliedIfRelated (relation value : String) : Term :=
  quantified Quantifier.all.name ["?X"] (relatedApplied relation value "?X")

/-- two relations wanted, each by a formula with a variable `?X` of its own -/
def twoRelations : Term := conj [appliedIfRelated "instance" "?R", appliedIfRelated "equal" "?S"]

/-- `p` is an instance of `A` and `B`, and `q` is equal to `B` and `C` -/
def twoClasses : KnowledgeBase := KnowledgeBase.empty.tellAll
  [app "instance" [.atom "p", .atom "A"], app "instance" [.atom "p", .atom "B"],
   app "equal" [.atom "q", .atom "B"], app "equal" [.atom "q", .atom "C"]]

/-- the values of a variable and of `?X` -/
def pair (name value second : String) : Bindings :=
  (Std.TreeMap.insert ∅ name (.atom value)).insert "?X" (.atom second)

/-- the question what a variable and `?X` are, and the pairs that it leads to -/
def joinFor (relation name value : String) (seconds : List String) : Join :=
  let l : Literal := ⟨relation, [.atom name, .atom "?X"]⟩
  ⟨l, [l], seconds.map (pair name value)⟩

/-- the questions that the two conjuncts ask, with their answers -/
def twoJoins : List Join :=
  [joinFor "instance" "?R" "p" ["A", "B"], joinFor "equal" "?S" "q" ["B", "C"]]

theorem exists_ofTemplates?_of_mem_twoJoins : ∀ j ∈ twoJoins,
    ∃ name templates, Join.ofTemplates? twoClasses name templates = some j := by
  refine List.forall_mem_cons.mpr ⟨⟨"?R", [⟨"instance", [.atom "?R", .atom "?X"]⟩], by cbv⟩, ?_⟩
  exact List.forall_mem_singleton.mpr ⟨"?S", [⟨"equal", [.atom "?S", .atom "?X"]⟩], by cbv⟩

theorem mem_freeVariables_appliedIfRelated (relation : String) {value : String}
    (hvar : Name.isVariable value = true) (hne : value ≠ "?X") :
    value ∈ (appliedIfRelated relation value).freeVariables := by
  refine mem_freeVariables_quantified.mpr ⟨mem_freeVariables_implies.mpr (.inr ?_), by simpa using hne⟩
  have hb : (app value [.atom "a"]).binder? = none :=
    binder?_app_eq_none _ (Name.isQuantifier_of_isVariable hvar)
  exact (mem_freeVariables_list hb).mpr
    ⟨.atom value, List.mem_cons_self, mem_freeVariables_atom.mpr ⟨hvar, rfl⟩⟩

theorem not_mem_freeVariables_appliedIfRelated (relation value : String) :
    "?X" ∉ (appliedIfRelated relation value).freeVariables := fun h =>
  (mem_freeVariables_quantified.mp h).2 List.mem_cons_self

/-- what is left of the formula once it is known that `p` is related to something -/
def halfDone : Term := conj [app "p" [.atom "a"], appliedIfRelated "equal" "?S"]

theorem extend_first {c : String} (hc : c = "A" ∨ c = "B") :
    (Instance.mk twoRelations ∅).extend twoClasses [⟨"instance", [.atom "?R", .atom "?X"]⟩]
        (pair "?R" "p" c) = ⟨halfDone, pair "?R" "p" c⟩ := by
  have hrow : (pair "?R" "p" c).toList = [("?R", .atom "p"), ("?X", .atom c)] := by
    rcases hc with rfl | rfl <;> cbv
  have hfirst : (Instance.mk twoRelations ∅).assign "?R" (.atom "p") =
      ⟨conj [appliedIfRelated "instance" "p", appliedIfRelated "equal" "?S"],
        Std.TreeMap.insert ∅ "?R" (.atom "p")⟩ := by
    rw [assign_of_free (by simp)]
    · congr 1
      cbv
    · exact mem_freeVariables_conj.mpr ⟨_, List.mem_cons_self,
        mem_freeVariables_appliedIfRelated _ (by decide) (by decide)⟩
  have hsecond : (Instance.mk (conj [appliedIfRelated "instance" "p", appliedIfRelated "equal" "?S"])
      (Std.TreeMap.insert ∅ "?R" (.atom "p"))).assign "?X" (.atom c) =
      ⟨conj [relatedApplied "instance" "p" c, appliedIfRelated "equal" "?S"], pair "?R" "p" c⟩ := by
    refine assign_of_bound (by cbv) ?_ (by cbv)
    rw [mem_freeVariables_conj]
    rintro ⟨x, hx, hfree⟩
    rcases List.mem_cons.mp hx with rfl | hx
    · exact not_mem_freeVariables_appliedIfRelated _ _ hfree
    · rw [List.mem_singleton.mp hx] at hfree
      exact not_mem_freeVariables_appliedIfRelated _ _ hfree
  simp only [extend, hrow, List.foldl_cons, List.foldl_nil, hfirst, hsecond]
  congr 1
  rcases hc with rfl | rfl <;> cbv

theorem extend_second :
    (Instance.mk halfDone (pair "?R" "p" "B")).extend twoClasses
        [⟨"instance", [.atom "?R", .atom "?X"]⟩, ⟨"equal", [.atom "?S", .atom "?X"]⟩]
        (pair "?S" "q" "B") =
      ⟨conj [app "p" [.atom "a"], appliedIfRelated "equal" "q"],
        (pair "?R" "p" "B").insert "?S" (.atom "q")⟩ := by
  have hrow : (pair "?S" "q" "B").toList = [("?S", .atom "q"), ("?X", .atom "B")] := by cbv
  have hfirst : (Instance.mk halfDone (pair "?R" "p" "B")).assign "?S" (.atom "q") =
      ⟨conj [app "p" [.atom "a"], appliedIfRelated "equal" "q"],
        (pair "?R" "p" "B").insert "?S" (.atom "q")⟩ := by
    rw [assign_of_free (by cbv)]
    · congr 1
      cbv
    · exact mem_freeVariables_conj.mpr ⟨_, List.mem_cons_of_mem _ List.mem_cons_self,
        mem_freeVariables_appliedIfRelated _ (by decide) (by decide)⟩
  have hsecond : (Instance.mk (conj [app "p" [.atom "a"], appliedIfRelated "equal" "q"])
      ((pair "?R" "p" "B").insert "?S" (.atom "q"))).assign "?X" (.atom "B") =
      ⟨conj [app "p" [.atom "a"], appliedIfRelated "equal" "q"],
        (pair "?R" "p" "B").insert "?S" (.atom "q")⟩ := assign_of_contains _ (by cbv)
  simp only [extend, hrow, List.foldl_cons, List.foldl_nil, hfirst, hsecond]
  congr 1
  cbv

/-- both values of `?X` lead to the same term -/
theorem successors_twoRelations : successors twoClasses [⟨"instance", [.atom "?R", .atom "?X"]⟩]
    [pair "?R" "p" "A", pair "?R" "p" "B"] ⟨twoRelations, ∅⟩ =
      [⟨halfDone, pair "?R" "p" "A"⟩, ⟨halfDone, pair "?R" "p" "B"⟩] := by
  have hagrees : ∀ row : Bindings, Bindings.agrees ∅ row = true := by simp [Bindings.agrees]
  have harity : (halfDone.checkArity twoClasses.valence).isOk = true := by cbv
  simp only [successors, hagrees, List.filter_cons, if_true, List.filter_nil, List.map_cons,
    List.map_nil, extend_first (.inl rfl), extend_first (.inr rfl), harity]

/-- no row of the second join agrees with the value `A`, which alone is left -/
theorem run_twoJoins : run twoClasses twoJoins [] [⟨twoRelations, ∅⟩] = [] := by
  have hB : Bindings.agrees (pair "?R" "p" "A") (pair "?S" "q" "B") = false := by cbv
  have hC : Bindings.agrees (pair "?R" "p" "A") (pair "?S" "q" "C") = false := by cbv
  have hmerged : step twoClasses [⟨"instance", [.atom "?R", .atom "?X"]⟩]
      [pair "?R" "p" "A", pair "?R" "p" "B"] [⟨twoRelations, ∅⟩] =
        [⟨halfDone, pair "?R" "p" "A"⟩] := by
    simp [step, successors_twoRelations, addNew]
  simp only [run, twoJoins, joinFor, List.map_cons, List.map_nil, List.nil_append, hmerged]
  simp [step, successors, hB, hC]

/-- a row of the second join agrees with the value `B` -/
theorem mem_runApart_twoJoins : Instance.mk (conj [app "p" [.atom "a"], appliedIfRelated "equal" "q"])
    ((pair "?R" "p" "B").insert "?S" (.atom "q")) ∈
      runApart twoClasses twoJoins [] [⟨twoRelations, ∅⟩] := by
  have hagrees : Bindings.agrees (pair "?R" "p" "B") (pair "?S" "q" "B") = true := by cbv
  have harity : ((conj [app "p" [.atom "a"], appliedIfRelated "equal" "q"]).checkArity
      twoClasses.valence).isOk = true := by cbv
  simp only [runApart, twoJoins, joinFor, List.map_cons, List.map_nil, List.nil_append, stepApart,
    List.flatMap_singleton, successors_twoRelations]
  refine List.mem_flatMap.mpr ⟨⟨halfDone, pair "?R" "p" "B"⟩, by simp, ?_⟩
  refine List.mem_filter.mpr ⟨List.mem_map.mpr ⟨pair "?S" "q" "B", ?_, extend_second⟩, harity⟩
  exact List.mem_filter.mpr ⟨List.mem_cons_self, hagrees⟩

/-- An instance may be lost: once `?X` is gone from the term, the instances for its two values are merged,
and the rows of the next join have to agree with the value of the first one. -/
theorem not_exists_mem_run : ¬ ∀ (kb : KnowledgeBase) (js : List Join) (t : Term),
    (∀ j ∈ js, ∃ name templates, Join.ofTemplates? kb name templates = some j) →
      ∀ i ∈ runApart kb js [] [⟨t, ∅⟩], ∃ k ∈ run kb js [] [⟨t, ∅⟩], k.term = i.term := by
  intro h
  obtain ⟨k, hk, _⟩ := h twoClasses twoJoins twoRelations exists_ofTemplates?_of_mem_twoJoins _
    mem_runApart_twoJoins
  rw [run_twoJoins] at hk
  cases hk

end

end Instance

/-! ## formulas -/

/-- the terms that a formula is replaced by, if any -/
def Outcome.terms : Outcome → List Term
  | .instantiated ts => ts
  | _ => []

namespace Term

variable {vars : PredicateVariables} {form : ClausalForm} {js : List Join} {t u : Term} {s : Supply}

/-- the instances of a formula in clausal form, with equal terms kept apart until the end -/
def instancesApart (kb : KnowledgeBase) (vars : PredicateVariables) (t : Term) (form : ClausalForm) :
    Outcome :=
  match joins kb form vars with
  | .error reason => .rejected reason
  | .ok js =>
    match Instance.runApart kb js [] [⟨t, ∅⟩] with
    | [] => .rejected .noneLeft
    | found => .instantiated (found.map Instance.term)

/-- the formulas that the formula stands for, with equal terms kept apart until the end -/
def instantiateApart (kb : KnowledgeBase) (t : Term) : StateM Supply Outcome :=
  let vars := t.predicateVariables kb
  if t.hasPredicateVariable vars then return t.instancesApart kb vars (← ClausalForm.ofTerm t)
  else pure .notApplicable

theorem terms_instances (h : joins kb form vars = .ok js) :
    (t.instances kb vars form).terms = (Instance.run kb js [] [⟨t, ∅⟩]).map Instance.term := by
  simp only [instances, h]
  split
  · next hnil =>
    rw [hnil]
    rfl
  · rfl

theorem terms_instancesApart (h : joins kb form vars = .ok js) :
    (t.instancesApart kb vars form).terms =
      (Instance.runApart kb js [] [⟨t, ∅⟩]).map Instance.term := by
  simp only [instancesApart, h]
  split
  · next hnil =>
    rw [hnil]
    rfl
  · rfl

/-- both ways follow the same joins, or there are no terms in either -/
theorem exists_joins_or_terms_eq_nil (kb : KnowledgeBase) (t : Term) (s : Supply) :
    (∃ js, joins kb (ClausalForm.ofTerm t s).1 (t.predicateVariables kb) = .ok js ∧
      (t.instantiatePredicates kb s).1.terms =
        (Instance.run kb js [] [⟨t, ∅⟩]).map Instance.term ∧
      (t.instantiateApart kb s).1.terms =
        (Instance.runApart kb js [] [⟨t, ∅⟩]).map Instance.term) ∨
    (t.instantiatePredicates kb s).1.terms = [] ∧ (t.instantiateApart kb s).1.terms = [] := by
  unfold instantiatePredicates instantiateApart
  split
  · simp only [State.bind_apply, State.pure_apply]
    cases hjoins : joins kb (ClausalForm.ofTerm t s).1 (t.predicateVariables kb) with
    | error e =>
      rw [instances, instancesApart, hjoins]
      exact .inr ⟨rfl, rfl⟩
    | ok js => exact .inl ⟨js, rfl, terms_instances hjoins, terms_instancesApart hjoins⟩
  · exact .inr ⟨rfl, rfl⟩

/-- whatever a formula is replaced by, it is replaced by it too if equal terms are kept apart -/
theorem mem_terms_instantiateApart (h : u ∈ (t.instantiatePredicates kb s).1.terms) :
    u ∈ (t.instantiateApart kb s).1.terms := by
  obtain ⟨js, -, hmerged, hapart⟩ | ⟨hmerged, -⟩ := exists_joins_or_terms_eq_nil kb t s
  · rw [hmerged] at h
    rw [hapart]
    obtain ⟨i, hi, rfl⟩ := List.mem_map.mp h
    exact List.mem_map_of_mem (Instance.mem_runApart_of_mem_run (List.Subset.refl _) hi)
  · rw [hmerged] at h
    cases h

/-- A formula is replaced by the same terms whether or not equal terms are kept apart, as long as equal
terms come with equal values between its joins. -/
theorem mem_terms_iff_of_settled
    (hsettled : ∀ js, joins kb (ClausalForm.ofTerm t s).1 (t.predicateVariables kb) = .ok js →
      ∀ js₁ js₂, js = js₁ ++ js₂ → js₁ ≠ [] → js₂ ≠ [] →
        Instance.Settled (Instance.runApart kb js₁ [] [⟨t, ∅⟩])) :
    u ∈ (t.instantiatePredicates kb s).1.terms ↔ u ∈ (t.instantiateApart kb s).1.terms := by
  obtain ⟨js, hjs, hmerged, hapart⟩ | ⟨hmerged, hapart⟩ := exists_joins_or_terms_eq_nil kb t s
  · rw [hmerged, hapart, List.mem_map, List.mem_map]
    exact Instance.exists_mem_run_iff (List.Subset.refl _) (Instance.Covers.refl _)
      (hsettled js hjs) u
  · rw [hmerged, hapart]

/-- with one join there is nothing that merging could lose -/
theorem mem_terms_iff_of_length_le
    (hlength : ∀ js, joins kb (ClausalForm.ofTerm t s).1 (t.predicateVariables kb) = .ok js →
      js.length ≤ 1) :
    u ∈ (t.instantiatePredicates kb s).1.terms ↔ u ∈ (t.instantiateApart kb s).1.terms := by
  refine mem_terms_iff_of_settled fun js hjs js₁ js₂ he hne₁ hne₂ => ?_
  have hone := hlength js hjs
  have hpos₁ := List.length_pos_iff.mpr hne₁
  have hpos₂ := List.length_pos_iff.mpr hne₂
  rw [he, List.length_append] at hone
  omega

end Term

end OntologyPrep
