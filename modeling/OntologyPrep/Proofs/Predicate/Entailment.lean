import OntologyPrep.Proofs.Predicate.Simplification
import OntologyPrep.Proofs.Predicate.Weight

/-!
# What rows carry over

A reading respects a knowledge base if it makes the told statements true and closes `instance` upward
along the told `subclass` statements.  What is left out of an instance is then true
(`Reading.Respects.isFact`).

* `Instance.Entailed`              an instance is a consequence of the formula, and speaks of all values
                                   of the names that have none yet;
* `Instance.entailed_of_mem_run`   so are the instances after all joins.
-/

namespace OntologyPrep

universe u

variable {D : Type u} {R : Reading D} {kb : KnowledgeBase}

/-! ## what is told -/

namespace Reading

/-- the value belongs to the class -/
def IsInstance (R : Reading D) (d : D) (cls : String) : Prop :=
  R.holds [R.constant "instance", d, R.constant cls]

/-- what has been told is true; only the first two arguments count when something is told to be an
instance of a class, or a class to be below another one -/
structure Respects (R : Reading D) (kb : KnowledgeBase) : Prop where
  told : ∀ t, kb.Told t → R.Models t
  instances : ∀ item cls, kb.ToldOf "instance" item cls → R.IsInstance (R.constant item) cls
  upward : ∀ sub sup, kb.ToldOf "subclass" sub sup → ∀ d, R.IsInstance d sub → R.IsInstance d sup

namespace Respects

theorem of_reaches (hR : R.Respects kb) {sub sup : String} (h : kb.Reaches sub sup) {d : D}
    (hd : R.IsInstance d sub) : R.IsInstance d sup := by
  induction h with
  | refl => exact hd
  | step _ htold ih => exact hR.upward _ _ htold _ ih

/-- an answer is true -/
theorem models_of_mem_ask (hR : R.Respects kb) (hkb : kb.Faithful) {l : Literal} {t : Term}
    (h : t ∈ kb.ask l) : R.Models t := by
  obtain ⟨_, htold | ⟨item, c, cls, rfl, hcls, hitem, hreach⟩⟩ := hkb.ask h
  · exact hR.told t htold
  · intro v
    rw [Term.truth_app _ (by decide)]
    show R.holds (List.map _ [_, _, _])
    simp only [List.map_cons, List.map_nil, denote, hcls, hitem.not_variable.1]
    exact hR.of_reaches hreach (hR.instances item c hitem)

/-- what is left out is true -/
theorem isFact (hR : R.Respects kb) (hkb : kb.Faithful) {literals : List Literal}
    {values : Bindings} {t : Term} (h : t ∈ kb.confirmed literals values) :
    t.IsFact (Term.Truth R.Says) := by
  obtain ⟨hmem, hholds⟩ := List.mem_filter.mp h
  have hground : t.containsVariable = false := by
    rcases Distinct.mem_addAll.mp hmem with hnil | hmem
    · cases hnil
    · simpa using (List.mem_filter.mp hmem).2
  refine ⟨hground, ?_⟩
  obtain ⟨l, hl, hask⟩ := (Option.any_eq_true _ _).mp hholds
  obtain ⟨r, hr, rfl⟩ := Option.map_eq_some_iff.mp hl
  obtain ⟨u, hu⟩ := List.exists_mem_of_ne_nil _ (by simpa using hask)
  have ht : (Literal.mk r t.args).toTerm = t := (Literal.eq_of_head? hr).symm
  have he := Literal.eq_of_accepts (by rw [ht]; exact hground) (hkb.ask hu).1
  rw [← ht, ← he]
  exact hR.models_of_mem_ask hkb hu

end Respects

end Reading

/-! ## one row -/

/-- the formula has the instance for a consequence, and what the instance says of the names without a
value is said of all their values -/
structure Instance.Entailed (R : Reading D) (t : Term) (names : List String) (i : Instance) :
    Prop where
  isFormula : i.term.IsFormula Term.IsBasic .full
  models : R.Models t → R.Models i.term
  speaks : ∀ name ∈ names, i.values.contains name = false → i.term.speaksOfAll name = true

namespace Instance

variable {t : Term} {names : List String} {i : Instance}

theorem Entailed.assign (h : i.Entailed R t names) {name : String} {value : Term}
    (hname : name ∈ names) (hvar : Name.isVariable name = true)
    (hground : value.containsVariable = false) (hvalue : value.Plain) :
    (i.assign name value).Entailed R t names := by
  unfold Instance.assign
  split
  · exact h
  · next hfree =>
    have hspeaks := h.speaks name hname (Bool.not_eq_true _ ▸ hfree)
    constructor
    · exact Term.isFormula_assign h.isFormula hvar hvalue
    · exact fun ht => Term.models_assign h.isFormula hvar hvalue hground hspeaks (h.models ht)
    · intro other hother hvalues
      rw [Std.TreeMap.contains_insert, Bool.or_eq_false_iff] at hvalues
      have hne : other ≠ name := by
        rintro rfl
        simp at hvalues
      rw [Term.speaksOfAll_assign h.isFormula hvar hvalue hground hne]
      exact h.speaks other hother hvalues.2

/-- the pairs assign ground values to some of the names -/
def Assigns (names : List String) (ps : List (String × Term)) : Prop :=
  ∀ p ∈ ps, p.1 ∈ names ∧ Name.isVariable p.1 = true ∧ p.2.containsVariable = false ∧ p.2.Plain

theorem Entailed.foldl (h : i.Entailed R t names) {ps : List (String × Term)}
    (hps : Assigns names ps) : (ps.foldl (fun i p => i.assign p.1 p.2) i).Entailed R t names := by
  induction ps generalizing i with
  | nil => exact h
  | cons p ps ih =>
    obtain ⟨hp, hrest⟩ := List.forall_mem_cons.mp hps
    exact ih (h.assign hp.1 hp.2.1 hp.2.2.1 hp.2.2.2) hrest

theorem Entailed.extend (h : i.Entailed R t names) (hR : R.Respects kb) (hkb : kb.Faithful)
    (literals : List Literal) {row : Bindings} (hrow : Assigns names row.toList) :
    (i.extend kb literals row).Entailed R t names := by
  have hfold := h.foldl hrow
  have hfacts : ∀ k ∈ kb.confirmed literals
      (row.toList.foldl (fun i p => i.assign p.1 p.2) i).values, k.IsFact (Term.Truth R.Says) :=
    fun k hk => hR.isFact hkb hk
  have hkeeps := Term.keeps_simplify (Term.isClassical_truth R.Says) (fun _ h => h.plain)
    (.inr rfl) (fun _ => Term.truth_verum) hfacts hfold.isFormula
  refine ⟨hkeeps.isFormula, fun ht v => (hkeeps.truth v).mpr (hfold.models ht v), ?_⟩
  intro name hname hvalues
  exact (hkeeps.speaksOfAll name).trans (hfold.speaks name hname hvalues)

/-! ## all rows -/

/-- what a row carries over, all joins carry over -/
theorem entailed_of_mem_run (hR : R.Respects kb) (hkb : kb.Faithful) {js : List Join}
    (hjs : ∀ j ∈ js, ∀ row ∈ j.rows, Assigns names row.toList) {literals : List Literal}
    {found : List Instance} (hfound : ∀ i ∈ found, i.Entailed R t names) {k : Instance}
    (hk : k ∈ run kb js literals found) : k.Entailed R t names := by
  induction js generalizing literals found with
  | nil => exact hfound k hk
  | cons j js ih =>
    obtain ⟨hj, hrest⟩ := List.forall_mem_cons.mp hjs
    refine ih hrest (fun i hi => ?_) hk
    obtain ⟨i', hi', row, hrow, _, rfl⟩ := exists_of_mem_step hi
    exact (hfound i' hi').extend hR hkb _ (hj row hrow)

end Instance

end OntologyPrep
