import OntologyPrep.Proofs.Normal.Vocabulary
import OntologyPrep.Proofs.Predicate.Weight

/-!
# The vocabulary of an instance

Where a formula and all told statements are over some names, so are the formulas that it is
instantiated to: answers are made of told atoms (`KnowledgeBase.Over.ask`), a row binds variables to
parts of answers, and giving a variable its value or leaving out what is known brings no other atoms
(`Term.over_of_instantiated`).
-/

namespace OntologyPrep

variable {names : String → Prop}

/-! ## values for variables -/

namespace Term

theorem over_quantified {q : Quantifier} {bound : List String} {body : Term}
    (hbound : ∀ n ∈ bound, (atom n).Over names) (hbody : body.Over names) :
    (quantified q.name bound body).Over names :=
  over_apply_pair (o := .quant q) (over_list.mpr (List.forall_mem_map.mpr hbound)) hbody

theorem over_binderAssign {b : Binder} (hb : b.toTerm.Over names) (name : String) {value : Term}
    (hvalue : value.Over names) : (b.assign name value).Over names := by
  obtain ⟨hbound, hbody⟩ := over_binder hb
  have hbody' := over_substitute hbody name hvalue
  unfold Binder.assign
  split
  · exact hbody'
  · next hleft _ =>
    refine over_quantified (fun n hn => hbound n ?_) hbody'
    exact (List.mem_filter.mp hn).1

mutual

theorem over_assignBound? {name : String} {value : Term} (hvalue : value.Over names) :
    ∀ (t : Term) {t' : Term}, assignBound? name value t = some t' → t.Over names → t'.Over names
  | .atom _, _, h, _ => by cases h
  | .list items, t', h, ht => by
    rw [assignBound?] at h
    split at h
    · next b hb =>
      cases h
      rw [binder?_eq_some_iff.mp (Option.filter_eq_some_iff.mp hb).1] at ht
      exact over_binderAssign ht name hvalue
    · obtain ⟨items', hitems, rfl⟩ := Option.map_eq_some_iff.mp h
      exact over_list.mpr (over_assignBoundIn? hvalue items hitems (over_list.mp ht))

theorem over_assignBoundIn? {name : String} {value : Term} (hvalue : value.Over names) :
    ∀ (ts : List Term) {ts' : List Term}, assignBoundIn? name value ts = some ts' →
      (∀ t ∈ ts, t.Over names) → ∀ t ∈ ts', t.Over names
  | [], _, h, _ => by cases h
  | t :: ts, ts', h, hts => by
    obtain ⟨ht, hrest⟩ := List.forall_mem_cons.mp hts
    rw [assignBoundIn?] at h
    split at h
    · next t' ht' =>
      cases h
      exact List.forall_mem_cons.mpr ⟨over_assignBound? hvalue t ht' ht, hrest⟩
    · obtain ⟨us, hus, rfl⟩ := Option.map_eq_some_iff.mp h
      exact List.forall_mem_cons.mpr ⟨ht, over_assignBoundIn? hvalue ts hus hrest⟩

end

theorem over_assign {t : Term} (ht : t.Over names) (name : String) {value : Term}
    (hvalue : value.Over names) : (t.assign name value).Over names := by
  unfold assign
  split
  · exact over_substitute ht name hvalue
  · cases h : assignBound? name value t with
    | none => exact ht
    | some t' => exact over_assignBound? hvalue t h ht

/-! ## leaving out what is known -/

theorem over_conjoin {ts : List Term} (h : ∀ t ∈ ts, t.Over names) : (conjoin ts).Over names := by
  unfold conjoin
  split
  · exact over_verum
  · exact h _ (by simp)
  · exact over_apply.mpr h

theorem over_dropTrueAntecedent {t : Term} (h : t.Over names) :
    t.dropTrueAntecedent.Over names := by
  unfold dropTrueAntecedent
  split
  · exact over_list.mp h _ (by simp)
  · exact h

theorem over_simplifyBy {known : List Term} {t : Term} (h : t.Over names) :
    (t.simplifyBy known).Over names := by
  induction t using simplifyBy.induct known with
  | case1 args ih =>
    rw [simplifyBy]
    refine over_conjoin fun u hu => ?_
    obtain ⟨a, ha, he⟩ := List.mem_filterMap.mp hu
    split at he
    · cases he
    · cases he
      exact ih a ha (over_list.mp h a (List.mem_cons_of_mem _ ha))
  | case2 antecedent consequent hknown ih =>
    rw [simplifyBy, if_pos hknown]
    exact ih (over_list.mp h consequent (by simp))
  | case3 antecedent consequent hknown ihl ihr =>
    rw [simplifyBy, if_neg hknown]
    have hl : antecedent.Over names := over_list.mp h antecedent (by simp)
    have hr : consequent.Over names := over_list.mp h consequent (by simp)
    exact over_dropTrueAntecedent (over_apply_pair (o := .implies) (ihl hl) (ihr hr))
  | case4 head args hand himplies htransparent ih =>
    obtain ⟨hhead, hargs⟩ := List.forall_mem_cons.mp (over_list.mp h)
    rw [simplifyBy, htransparent]
    · refine over_list.mpr (List.forall_mem_cons.mpr ⟨hhead, ?_⟩)
      exact List.forall_mem_map.mpr fun a ha => ih a ha (hargs a ha)
    · exact hand
    · exact himplies
  | case5 head args hand himplies htransparent =>
    rw [simplifyBy, htransparent]
    · exact h
    · exact hand
    · exact himplies
  | case6 t hand himplies hlist =>
    rw [simplifyBy] <;> assumption

theorem over_simplify {t : Term} (h : t.Over names) (known : List Term) :
    (t.simplify known).Over names := by
  unfold simplify
  split
  · exact h
  · exact over_simplifyBy h

end Term

/-! ## answers -/

/-- all values are over the names -/
def Bindings.Over (names : String → Prop) (row : Bindings) : Prop :=
  ∀ (a : String) (v : Term), row[a]? = some v → v.Over names

theorem Bindings.over_empty : Bindings.Over names ∅ := by
  intro a v h
  simp at h

theorem Bindings.Over.insert {row : Bindings} (h : row.Over names) (a : String) {v : Term}
    (hv : v.Over names) : Bindings.Over names (Std.TreeMap.insert row a v) := by
  intro b w hb
  rw [Std.TreeMap.getElem?_insert] at hb
  split at hb
  · cases hb
    exact hv
  · exact h b w hb

namespace Term

mutual

/-- matching binds variables to parts of the value -/
theorem over_match? {v : Term} (hv : v.Over names) :
    ∀ (p : Term) {env env' : Bindings}, env.Over names → p.match? v env = some env' →
      env'.Over names
  | .atom a, env, env', henv, h => by
    rw [match?] at h
    split at h
    · split at h
      · split at h
        · cases h
          exact henv
        · cases h
      · cases h
        exact henv.insert a hv
    · split at h
      · cases h
        exact henv
      · cases h
  | .list ps, env, env', henv, h => by
    cases v with
    | atom a => simp [match?] at h
    | list vs =>
      rw [match?] at h
      exact over_matchAll? (over_list.mp hv) ps henv h

theorem over_matchAll? {vs : List Term} (hv : ∀ v ∈ vs, v.Over names) :
    ∀ (ps : List Term) {env env' : Bindings}, env.Over names → matchAll? ps vs env = some env' →
      env'.Over names
  | [], env, env', henv, h => by
    cases vs with
    | nil =>
      rw [matchAll?] at h
      cases h
      exact henv
    | cons v vs => simp [matchAll?] at h
  | p :: ps, env, env', henv, h => by
    cases vs with
    | nil => simp [matchAll?] at h
    | cons v vs =>
      obtain ⟨hhead, htail⟩ := List.forall_mem_cons.mp hv
      rw [matchAll?] at h
      split at h
      · next mid hmid => exact over_matchAll? htail ps (over_match? hhead p henv hmid) h
      · cases h

end

end Term

theorem Literal.over_bindings? {l : Literal} {t : Term} {row : Bindings} (ht : t.Over names)
    (h : l.bindings? t = some row) : row.Over names := by
  unfold bindings? at h
  split at h
  · refine Term.over_matchAll? (fun v hv => ?_) l.args Bindings.over_empty h
    cases t with
    | atom a => cases hv
    | list xs => exact Term.over_list.mp ht v (List.mem_of_mem_drop hv)
  · cases h

namespace KnowledgeBase

variable {kb : KnowledgeBase}

/-- the tables hold what told statements say, and all of these are over the names -/
structure Over (names : String → Prop) (kb : KnowledgeBase) : Prop where
  faithful : kb.Faithful
  told : ∀ t, kb.Told t → t.Over names

theorem Over.atomAt? (hkb : kb.Over names) {t : Term} (ht : kb.Told t) {index : Nat} {a : String}
    (ha : t.atomAt? index = some a) : (Term.atom a).Over names :=
  (hkb.told t ht).atom (Term.mem_atoms_of_atomAt? ha)

theorem Over.toldOf (hkb : kb.Over names) {relation item value : String}
    (h : kb.ToldOf relation item value) : (Term.atom relation).Over names ∧
      (Term.atom item).Over names ∧ (Term.atom value).Over names := by
  obtain ⟨t, ht, hhead, hitem, hvalue⟩ := h
  refine ⟨?_, hkb.atomAt? ht hitem, hkb.atomAt? ht hvalue⟩
  have hover := hkb.told t ht
  rw [Literal.eq_of_head? hhead] at hover
  exact Term.over_list.mp hover _ List.mem_cons_self

theorem Over.reaches (hkb : kb.Over names) {sub sup : String} (h : kb.Reaches sub sup)
    (hsub : (Term.atom sub).Over names) : (Term.atom sup).Over names := by
  cases h with
  | refl => exact hsub
  | step _ htold => exact (hkb.toldOf htold).2.2

/-- answers are over the names -/
theorem Over.ask (hkb : kb.Over names) {l : Literal} {t : Term} (ht : t ∈ kb.ask l) :
    t.Over names := by
  obtain ⟨_, htold | ⟨item, c, cls, rfl, _, hitem, hreach⟩⟩ := hkb.faithful.ask ht
  · exact hkb.told t htold
  · obtain ⟨hrelation, hitem, hc⟩ := hkb.toldOf hitem
    refine Term.over_list.mpr ?_
    simp only [List.forall_mem_cons, List.not_mem_nil, false_implies, implies_true, and_true]
    exact ⟨hrelation, hitem, hkb.reaches hreach hc⟩

theorem Over.rowsFor (hkb : kb.Over names) {name : String} {l : Literal} {row : Bindings}
    (h : row ∈ kb.rowsFor name l) : row.Over names := by
  obtain ⟨t, ht, hbindings⟩ := List.mem_filterMap.mp (List.mem_filter.mp h).1
  exact Literal.over_bindings? (hkb.ask ht) hbindings

end KnowledgeBase

/-! ## instances -/

namespace Instance

variable {kb : KnowledgeBase}

theorem over_assign {i : Instance} (hi : i.term.Over names) (name : String) {value : Term}
    (hvalue : value.Over names) : (i.assign name value).term.Over names := by
  unfold assign
  split
  · exact hi
  · exact Term.over_assign hi name hvalue

theorem over_extend {i : Instance} (hi : i.term.Over names) (literals : List Literal)
    {row : Bindings} (hrow : row.Over names) : (i.extend kb literals row).term.Over names := by
  have hassign : ∀ (ps : List (String × Term)) (i : Instance), (∀ p ∈ ps, p.2.Over names) →
      i.term.Over names → (ps.foldl (fun i p => i.assign p.1 p.2) i).term.Over names := by
    intro ps
    induction ps with
    | nil => exact fun i _ hi => hi
    | cons p ps ih =>
      intro i hps hi
      obtain ⟨hp, hrest⟩ := List.forall_mem_cons.mp hps
      exact ih _ hrest (over_assign hi p.1 hp)
  refine Term.over_simplify (hassign row.toList i (fun p hp => ?_) hi) _
  exact hrow p.1 p.2 (Std.TreeMap.mem_toList_iff_getElem?_eq_some.mp hp)

theorem over_run {js : List Join} (hjs : ∀ j ∈ js, ∀ row ∈ j.rows, row.Over names)
    {literals : List Literal} {found : List Instance} (hfound : ∀ i ∈ found, i.term.Over names) :
    ∀ k ∈ run kb js literals found, k.term.Over names := by
  induction js generalizing literals found with
  | nil => exact hfound
  | cons j js ih =>
    obtain ⟨hj, hrest⟩ := List.forall_mem_cons.mp hjs
    refine ih hrest fun k hk => ?_
    obtain ⟨i, hi, row, hrow, -, rfl⟩ := exists_of_mem_step hk
    exact over_extend (hfound i hi) _ (hj row hrow)

end Instance

/-- the formulas that a formula is instantiated to are over the names of the formula and of the
knowledge base -/
theorem Term.over_of_instantiated {kb : KnowledgeBase} (hkb : kb.Over names) {t : Term}
    (ht : t.Over names) {s : Supply} {ts : List Term}
    (h : (t.instantiatePredicates kb s).1 = .instantiated ts) : ∀ u ∈ ts, u.Over names := by
  unfold instantiatePredicates at h
  split at h
  · simp only [State.bind_apply, State.pure_apply] at h
    unfold instances at h
    split at h
    · cases h
    · next js hjs =>
      split at h
      · cases h
      · cases h
        refine List.forall_mem_map.mpr (Instance.over_run (fun j hj row hrow => ?_) ?_)
        · obtain ⟨v, -, hanswers⟩ := exists_answers_of_mem_joins hjs hj
          obtain ⟨l, hl⟩ := hanswers row hrow
          exact hkb.rowsFor hl
        · exact List.forall_mem_singleton.mpr ht
  · cases h

end OntologyPrep
