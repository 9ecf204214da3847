import OntologyPrep.Proofs.Meaning.FirstOrder
import OntologyPrep.Proofs.Normal.Shape
import OntologyPrep.Proofs.Term.Bound

/-!
# Universal quantifiers can be dropped

A formula with universal quantifiers only says the same, read for all values, as what is left without
them (`Term.models_universalsOut`): no name is bound twice or both free and bound, so that values of the
bound names that make parts of a disjunction false can be put together.
-/

namespace OntologyPrep.Term

universe u

/-! ## where quantifiers go -/

/-- what was bound is free afterwards -/
theorem mem_freeVariables_universalsOut {t : Term} (ht : t.IsFormula IsAtomicFormula .universal)
    {a : String} (ha : a ∈ t.universalsOut.freeVariables) : a ∈ t.freeVariables ∨ a ∈ t.bound := by
  have happly : ∀ {o : Operator} {args : List Term}, o = .conj ∨ o = .disj →
      (∀ x ∈ args, a ∈ x.universalsOut.freeVariables → a ∈ x.freeVariables ∨ a ∈ x.bound) →
      a ∈ (apply o args).universalsOut.freeVariables →
        a ∈ (apply o args).freeVariables ∨ a ∈ (apply o args).bound := by
    intro o args ho h ha
    have hq : Name.isQuantifier o.name = false := by rcases ho with rfl | rfl <;> decide
    have hv : Name.isVariable o.name = false := by rcases ho with rfl | rfl <;> decide
    rw [apply, universalsOut_app hq, mem_freeVariables_app hq hv, exists_mem_map] at ha
    obtain ⟨x, hx, ha⟩ := ha
    refine (h x hx ha).imp (fun ha => (mem_freeVariables_app hq hv).mpr ⟨x, hx, ha⟩) fun ha => ?_
    rw [apply, bound_app hq]
    exact List.mem_flatMap.mpr ⟨x, hx, ha⟩
  induction ht with
  | atomic h =>
    rw [h.nonlogical.universalsOut] at ha
    exact .inl ha
  | literal h =>
    rw [h.nonlogical.universalsOut_neg] at ha
    exact .inl ha
  | conj _ ih => exact happly (.inl rfl) ih ha
  | disj _ ih => exact happly (.inr rfl) ih ha
  | neg hnested => exact hnested.elim
  | implies harrows => exact harrows.elim
  | iff harrows => exact harrows.elim
  | @quantified q names body hq _ _ ih =>
    obtain rfl := hq
    rw [universalsOut_quantified_all] at ha
    rw [mem_freeVariables_quantified, bound_quantified, List.mem_append]
    by_cases hn : a ∈ names
    · exact .inr (.inl hn)
    · exact (ih ha).imp (fun h => ⟨h, hn⟩) .inr

/-! ## what is left says the same -/

section

variable {D : Type u} {M : Interpretation D}

/-- a formula without its universal quantifiers is true where the formula is -/
theorem truth_universalsOut {t : Term} (ht : t.IsFormula IsAtomicFormula .universal)
    {v : Valuation D} (htrue : t.Truth M.holds v) : t.universalsOut.Truth M.holds v := by
  induction ht generalizing v with
  | atomic h =>
    rw [h.nonlogical.universalsOut]
    exact htrue
  | literal h =>
    rw [h.nonlogical.universalsOut_neg]
    exact htrue
  | conj _ ih =>
    rw [conj, apply, universalsOut_app (by decide), ← apply, ← conj, truth_conj,
      List.forall_mem_map]
    exact fun x hx => ih x hx ((truth_conj _).mp htrue x hx)
  | disj _ ih =>
    rw [disj, apply, universalsOut_app (by decide), ← apply, ← disj, truth_disj, exists_mem_map]
    obtain ⟨x, hx, htrue⟩ := (truth_disj _).mp htrue
    exact ⟨x, hx, ih x hx htrue⟩
  | neg hnested => exact hnested.elim
  | implies harrows => exact harrows.elim
  | iff harrows => exact harrows.elim
  | quantified hq _ _ ih =>
    obtain rfl := hq
    rw [universalsOut_quantified_all]
    exact ih ((truth_all _ _).mp htrue v (.refl _ v))

theorem Apart.of_mem_args {o : Operator} (ho : o = .conj ∨ o = .disj) {args : List Term}
    (h : (apply o args).Apart) {x : Term} (hx : x ∈ args) : x.Apart := by
  have hq : Name.isQuantifier o.name = false := by rcases ho with rfl | rfl <;> decide
  have hv : Name.isVariable o.name = false := by rcases ho with rfl | rfl <;> decide
  have hsub : x.bound.Sublist (apply o args).bound := by
    rw [apply, bound_app hq]
    exact sublist_bound_of_mem hx
  exact ⟨h.nodup.sublist hsub, fun a ha hb =>
    h.disjoint a ((mem_freeVariables_app hq hv).mpr ⟨x, hx, ha⟩) (hsub.subset hb)⟩

/-- the values of the names of a formula, free and bound, decide about what is left of it -/
theorem truth_universalsOut_congr {t : Term} (ht : t.IsFormula IsAtomicFormula .universal)
    {v w : Valuation D} (h : ∀ a, a ∈ t.freeVariables ∨ a ∈ t.bound → v a = w a) :
    t.universalsOut.Truth M.holds v ↔ t.universalsOut.Truth M.holds w :=
  truth_congr (local_isAtomicFormula M)
    (isFormula_universalsOut (fun _ => IsAtomicFormula.nonlogical) ht)
    fun a ha => h a (mem_freeVariables_universalsOut ht ha)

/-- values that make each of some formulas false, put together: what one formula binds has no say in
another one -/
theorem exists_values {args : List Term} (h : (disj args).Apart)
    (hform : ∀ x ∈ args, x.IsFormula IsAtomicFormula .universal) {v : Valuation D}
    (hfalse : ∀ x ∈ args, ∃ w, v.AgreeOff x.bound w ∧ ¬ x.universalsOut.Truth M.holds w) :
    ∃ w, v.AgreeOff (disj args).bound w ∧ ∀ x ∈ args, ¬ x.universalsOut.Truth M.holds w := by
  induction args with
  | nil => exact ⟨v, .refl _ v, fun x hx => absurd hx List.not_mem_nil⟩
  | cons x xs ih =>
    have hbound : (disj (x :: xs)).bound = x.bound ++ (disj xs).bound := by
      rw [disj, disj, apply, apply, bound_app (by decide), bound_app (by decide),
        List.flatMap_cons]
    have hmem : ∀ {y : Term}, y ∈ xs → ∀ a ∈ y.bound, a ∈ (disj xs).bound := by
      intro y hy a ha
      rw [disj, apply, bound_app (by decide)]
      exact List.mem_flatMap.mpr ⟨y, hy, ha⟩
    obtain ⟨hnodup, hdisjoint⟩ := h
    have hfree : ∀ y ∈ x :: xs, ∀ a ∈ y.freeVariables, a ∉ x.bound ∧ a ∉ (disj xs).bound := by
      intro y hy a ha
      have hout := hdisjoint a (mem_freeVariables_disj.mpr ⟨y, hy, ha⟩)
      rw [hbound, List.mem_append, not_or] at hout
      exact hout
    rw [hbound] at hnodup ⊢
    obtain ⟨_, hrest, hcross⟩ := List.nodup_append.mp hnodup
    have hapart : (disj xs).Apart := by
      refine ⟨hrest, fun a ha => ?_⟩
      obtain ⟨y, hy, ha⟩ := mem_freeVariables_disj.mp ha
      exact (hfree y (List.mem_cons_of_mem _ hy) a ha).2
    obtain ⟨w₁, hw₁, hfalse₁⟩ := hfalse x List.mem_cons_self
    obtain ⟨w₂, hw₂, hfalse₂⟩ := ih hapart (fun y hy => hform y (List.mem_cons_of_mem _ hy))
      fun y hy => hfalse y (List.mem_cons_of_mem _ hy)
    obtain ⟨w, hw, hfirst, hothers⟩ := hw₁.exists_both hw₂
    refine ⟨w, hw, fun y hy => ?_⟩
    rcases List.mem_cons.mp hy with rfl | hyxs
    · rwa [truth_universalsOut_congr (hform y hy) fun a ha => hfirst a fun hb => ?_]
      exact ha.elim (fun ha => (hfree y hy a ha).2 hb) fun ha => hcross a ha a hb rfl
    · rw [truth_universalsOut_congr (hform y hy) fun a ha => hothers a fun hb => ?_]
      · exact hfalse₂ y hyxs
      · exact ha.elim (fun ha => (hfree y hy a ha).1 hb) fun ha => hcross a hb a (hmem hyxs a ha) rfl

/-- values that make a formula false do so, with other values for its bound names, to what is left
without universal quantifiers -/
theorem exists_not_truth_universalsOut {t : Term} (ht : t.IsFormula IsAtomicFormula .universal)
    (hapart : t.Apart) {v : Valuation D} (hfalse : ¬ t.Truth M.holds v) :
    ∃ w, v.AgreeOff t.bound w ∧ ¬ t.universalsOut.Truth M.holds w := by
  induction ht generalizing v with
  | atomic h =>
    rw [h.nonlogical.universalsOut]
    exact ⟨v, .refl _ v, hfalse⟩
  | literal h =>
    rw [h.nonlogical.universalsOut_neg]
    exact ⟨v, .refl _ v, hfalse⟩
  | @conj args hargs ih =>
    rw [truth_conj] at hfalse
    obtain ⟨x, hx⟩ := Classical.not_forall.mp hfalse
    obtain ⟨hx, hfalse⟩ := Classical.not_imp.mp hx
    obtain ⟨w, hw, hfalse⟩ := ih x hx (hapart.of_mem_args (.inl rfl) hx) hfalse
    refine ⟨w, hw.mono fun a ha => ?_, fun htrue => hfalse ?_⟩
    · rw [conj, apply, bound_app (by decide)]
      exact List.mem_flatMap.mpr ⟨x, hx, ha⟩
    · rw [conj, apply, universalsOut_app (by decide), ← apply, ← conj, truth_conj] at htrue
      exact htrue _ (List.mem_map_of_mem hx)
  | @disj args hargs ih =>
    have hall : ∀ x ∈ args, ∃ w, v.AgreeOff x.bound w ∧ ¬ x.universalsOut.Truth M.holds w :=
      fun x hx => ih x hx (hapart.of_mem_args (.inr rfl) hx) fun htrue =>
        hfalse ((truth_disj _).mpr ⟨x, hx, htrue⟩)
    obtain ⟨w, hw, hfalse⟩ := exists_values hapart hargs hall
    refine ⟨w, hw, fun htrue => ?_⟩
    rw [disj, apply, universalsOut_app (by decide), ← apply, ← disj, truth_disj,
      exists_mem_map] at htrue
    obtain ⟨x, hx, htrue⟩ := htrue
    exact hfalse x hx htrue
  | neg hnested => exact hnested.elim
  | implies harrows => exact harrows.elim
  | iff harrows => exact harrows.elim
  | @quantified q names body hq _ _ ih =>
    obtain rfl := hq
    obtain ⟨hnodup, hdisjoint⟩ := hapart
    rw [bound_quantified] at hnodup hdisjoint ⊢
    obtain ⟨_, hbody, hcross⟩ := List.nodup_append.mp hnodup
    rw [truth_all] at hfalse
    obtain ⟨w, hw⟩ := Classical.not_forall.mp hfalse
    obtain ⟨hw, hfalse⟩ := Classical.not_imp.mp hw
    have hapart' : body.Apart := by
      refine ⟨hbody, fun a ha hb => ?_⟩
      by_cases hn : a ∈ names
      · exact hcross a hn a hb rfl
      · exact hdisjoint a (mem_freeVariables_quantified.mpr ⟨ha, hn⟩) (List.mem_append_right _ hb)
    obtain ⟨w', hw', hfalse⟩ := ih hapart' hfalse
    rw [universalsOut_quantified_all]
    refine ⟨w', fun a ha => ?_, hfalse⟩
    rw [List.mem_append, not_or] at ha
    rw [hw' a ha.2, hw a ha.1]

/-- read for all values, a formula and what is left without its universal quantifiers say the same -/
theorem models_universalsOut {t : Term} (ht : t.IsFormula IsAtomicFormula .universal)
    (hapart : t.Apart) : M.Models t.universalsOut ↔ M.Models t := by
  constructor
  · intro hmodels v
    refine Classical.byContradiction fun hfalse => ?_
    obtain ⟨w, _, hfalse⟩ := exists_not_truth_universalsOut ht hapart hfalse
    exact hfalse (hmodels w)
  · exact fun hmodels v => truth_universalsOut ht (hmodels v)

end

end OntologyPrep.Term
