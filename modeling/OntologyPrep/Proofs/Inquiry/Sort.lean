import OntologyPrep.Inquiry.Sort
import OntologyPrep.Proofs.Inquiry.Basic

/-!
# Sorts by asking are those of the knowledge base

Types are looked up in the cache and asked for in the same order, so that the guards, the missing facts and
the cache left behind are the same (`Inquiry.result_restrictTypes`, `Inquiry.result_missingFacts`).
-/

namespace OntologyPrep.Inquiry

variable {kb : KnowledgeBase}

theorem result_typeOf (relation : String) (position : Nat) :
    resultState kb (typeOf relation position) = kb.typeOf relation position := by
  funext cache
  unfold resultState typeOf KnowledgeBase.typeOf TypeCache.getOrAdd
  simp only
  cases cache.get? (TypeCache.argumentKey relation position) with
  | some result => rfl
  | none => rfl

theorem result_winnow (classes : List String) :
    (winnow classes).result kb = kb.winnow classes := by
  simp only [winnow, result_filterM, result_bind, result_anyM, result_isSubclass, result_pure,
    KnowledgeBase.winnow]

/-! ## guards -/

theorem result_note (p : Term.Place) : resultState kb (note p) = Restricting.note kb p := by
  funext r
  have htype : (typeOf p.relation p.position r.cache).result kb =
      kb.typeOf p.relation p.position r.cache := congrFun (result_typeOf p.relation p.position) r.cache
  unfold resultState note Restricting.note
  rw [result_bind, htype]
  simp only
  cases (kb.typeOf p.relation p.position r.cache).1 with
  | some type => rfl
  | none => rfl

theorem result_guards (f : Frame) : (guards f).result kb = f.guards kb := by
  simp only [guards, result_bind, result_winnow, result_pure, Frame.guards]

/-- the guards put into every quantified formula, and what restricting carries along -/
theorem result_restrict (t : Term) : resultState kb (restrict t) = t.restrict kb := by
  induction t using Term.restrict.induct with
  | case1 a =>
    rw [restrict, Term.restrict]
    rfl
  | case2 items b hb ih =>
    rw [restrict, Term.restrict]
    generalize hfound : (Term.list items).binder? = found at hb
    subst hb
    simp only [resultState_bind, resultState_silent, ih, resultState_lift, resultState_pure, pure_bind,
      flatten_result_mapM fun f _ => result_guards f]
  | case3 items hb hhead =>
    rw [restrict, Term.restrict]
    generalize hfound : (Term.list items).binder? = found at hb
    subst hb
    simp only [hhead, if_true, resultState_bind, resultState_forM, result_note, resultState_pure]
  | case4 items hb hhead ih =>
    rw [restrict, Term.restrict]
    generalize hfound : (Term.list items).binder? = found at hb
    subst hb
    simp only [hhead, Bool.false_eq_true, if_false, resultState_bind, resultState_mapM ih,
      resultState_pure]

theorem result_restrictTypes (t : Term) :
    resultState kb (restrictTypes t) = t.restrictTypes kb := by
  funext cache
  have hrestrict : (restrict t.closeUniversally ⟨[], cache⟩).result kb =
      t.closeUniversally.restrict kb ⟨[], cache⟩ :=
    congrFun (result_restrict t.closeUniversally) ⟨[], cache⟩
  unfold resultState restrictTypes Term.restrictTypes
  rw [result_bind, hrestrict]
  rfl

/-! ## facts -/

theorem result_missingAmong (live : List Term) (classes : List String) (cache : TypeCache) :
    (missingAmong live classes cache).result kb = kb.missingAmong live classes cache := by
  induction classes generalizing cache with
  | nil => rfl
  | cons cls classes ih =>
    rw [missingAmong, KnowledgeBase.missingAmong, result_bind, result_knows,
      apply_ite (result kb), ih, result_bind, ih]
    rfl

theorem result_missingFacts (live : List Term) :
    resultState kb (missingFacts live) = kb.missingFacts live :=
  funext fun cache => result_missingAmong live (Term.classConstants live) cache

end OntologyPrep.Inquiry
