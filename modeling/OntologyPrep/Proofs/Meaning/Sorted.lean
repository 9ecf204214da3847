import OntologyPrep.Proofs.Sort.Guards

/-!
# Quantifying over sorts

`Term.SortedTruth` is truth with quantifiers that range over the values that are admitted for their
variables; with `KnowledgeBase.Admits`, these are the values that satisfy the guards of the variables.

`Term.truth_restrictTypes` says that a formula restricted to the declared types is true exactly if its
universal closure is true in this sense, and that it has no free variable.
-/

namespace OntologyPrep

universe u

namespace Term

variable {D : Type u}

/-- the formula is true for the values, where the variables of a quantified formula range over the
values that are admitted for them in its body -/
def SortedTruth (admits : List String → Term → Valuation D → Prop)
    (holds : Valuation D → Term → Prop) (v : Valuation D) : Term → Prop
  | .atom a => a = trueName ∨ a ≠ falseName ∧ holds v (.atom a)
  | .list (.atom "and" :: args) => ∀ x ∈ args, x.SortedTruth admits holds v
  | .list (.atom "or" :: args) => ∃ x, ∃ _ : x ∈ args, x.SortedTruth admits holds v
  | .list [.atom "not", t] => ¬ t.SortedTruth admits holds v
  | .list [.atom "=>", s, t] => s.SortedTruth admits holds v → t.SortedTruth admits holds v
  | .list [.atom "<=>", s, t] => s.SortedTruth admits holds v ↔ t.SortedTruth admits holds v
  | .list [.atom "forall", entries, body] =>
    ∀ w, v.AgreeOff (Binder.mk .all entries body).names w →
      admits (Binder.mk .all entries body).names body w → body.SortedTruth admits holds w
  | .list [.atom "exists", entries, body] =>
    ∃ w, v.AgreeOff (Binder.mk .any entries body).names w ∧
      admits (Binder.mk .any entries body).names body w ∧ body.SortedTruth admits holds w
  | .list items => holds v (.list items)

/-- the formula under a universal quantifier for its free variables -/
def universalClosure (t : Term) : Term := .quantified Quantifier.all.name t.freeVariables t

end Term

/-- the values satisfy the guards that bound variables have in a scope -/
def KnowledgeBase.Admits {D : Type u} (kb : KnowledgeBase) (cache : TypeCache) (M : Interpretation D)
    (names : List String) (scope : Term) (w : Valuation D) : Prop :=
  ∀ n ∈ names, ∀ g ∈ scope.guardsFor kb cache n, M.holds w g

namespace Term

section

variable {D : Type u} {admits : List String → Term → Valuation D → Prop}
  {holds : Valuation D → Term → Prop} {v : Valuation D}

/-! ## the connectives -/

theorem sortedTruth_conj (args : List Term) :
    (conj args).SortedTruth admits holds v ↔ ∀ x ∈ args, x.SortedTruth admits holds v := by
  show (list (.atom "and" :: args)).SortedTruth admits holds v ↔ _
  rw [SortedTruth.eq_def]
  rfl

theorem sortedTruth_disj (args : List Term) :
    (disj args).SortedTruth admits holds v ↔ ∃ x ∈ args, x.SortedTruth admits holds v := by
  show (list (.atom "or" :: args)).SortedTruth admits holds v ↔ _
  rw [SortedTruth.eq_def]
  show (∃ x, ∃ _ : x ∈ args, x.SortedTruth admits holds v) ↔ _
  simp only [exists_prop]

theorem sortedTruth_neg (t : Term) :
    t.neg.SortedTruth admits holds v ↔ ¬ t.SortedTruth admits holds v := by
  show (list [.atom "not", t]).SortedTruth admits holds v ↔ _
  rw [SortedTruth.eq_def]
  rfl

theorem sortedTruth_implies (s t : Term) : (implies s t).SortedTruth admits holds v ↔
    (s.SortedTruth admits holds v → t.SortedTruth admits holds v) := by
  show (list [.atom "=>", s, t]).SortedTruth admits holds v ↔ _
  rw [SortedTruth.eq_def]
  rfl

theorem sortedTruth_iff (s t : Term) : (iff s t).SortedTruth admits holds v ↔
    (s.SortedTruth admits holds v ↔ t.SortedTruth admits holds v) := by
  show (list [.atom "<=>", s, t]).SortedTruth admits holds v ↔ _
  rw [SortedTruth.eq_def]
  rfl

theorem sortedTruth_all (names : List String) (body : Term) :
    (quantified Quantifier.all.name names body).SortedTruth admits holds v ↔
      ∀ w, v.AgreeOff names w → admits names body w → body.SortedTruth admits holds w := by
  rw [quantified, SortedTruth.eq_def]
  show (∀ w, v.AgreeOff (Binder.mk .all (.list (names.map atom)) body).names w →
    admits (Binder.mk .all (.list (names.map atom)) body).names body w →
      body.SortedTruth admits holds w) ↔ _
  rw [names_quantified]

theorem sortedTruth_any (names : List String) (body : Term) :
    (quantified Quantifier.any.name names body).SortedTruth admits holds v ↔
      ∃ w, v.AgreeOff names w ∧ admits names body w ∧ body.SortedTruth admits holds w := by
  rw [quantified, SortedTruth.eq_def]
  show (∃ w, v.AgreeOff (Binder.mk .any (.list (names.map atom)) body).names w ∧
    admits (Binder.mk .any (.list (names.map atom)) body).names body w ∧
      body.SortedTruth admits holds w) ↔ _
  rw [names_quantified]

/-- atomic formulas have no quantifiers -/
theorem sortedTruth_atomic {t : Term} (ht : t.IsAtomicFormula) :
    t.SortedTruth admits holds v ↔ t.Truth holds v := by
  cases ht with
  | const _ => rw [SortedTruth.eq_def, Truth.eq_def]
  | @app f args hf _ =>
    have hne : ∀ o : Operator, f ≠ o.name := Name.ne_operator_of_not_isOperator hf.2
    rw [truth_app args hf.2, app, SortedTruth]
    · exact fun _ h => hne .conj (Term.atom.inj (List.cons.inj h).1)
    · exact fun _ h => hne .disj (Term.atom.inj (List.cons.inj h).1)
    · exact fun _ h => hne .neg (Term.atom.inj (List.cons.inj h).1)
    · exact fun _ _ h => hne .implies (Term.atom.inj (List.cons.inj h).1)
    · exact fun _ _ h => hne .iff (Term.atom.inj (List.cons.inj h).1)
    · exact fun _ _ h => hne (.quant .all) (Term.atom.inj (List.cons.inj h).1)
    · exact fun _ _ h => hne (.quant .any) (Term.atom.inj (List.cons.inj h).1)

/-! ## guards -/

theorem guarded_all_cons_cons (names : List String) (g g' : Term) (gs : List Term) (body : Term) :
    guarded .all names (g :: g' :: gs) body =
      .quantified Quantifier.all.name names (.implies (.conj (g :: g' :: gs)) body) := rfl

theorem guarded_any_cons (names : List String) (g : Term) (gs : List Term) (body : Term) :
    guarded .any names (g :: gs) body = .quantified Quantifier.any.name names
      (.conj (g :: gs ++ if body.operator? = some .conj then body.args else [body])) := by
  cases gs <;> rfl

/-- a universal formula behind guards says something about the values that satisfy them -/
theorem truth_guarded_all (names : List String) (guards : List Term) (body : Term) :
    (guarded .all names guards body).Truth holds v ↔
      ∀ w, v.AgreeOff names w → (∀ g ∈ guards, g.Truth holds w) → body.Truth holds w := by
  match guards with
  | [] => simp [guarded, truth_all]
  | [g] => simp [guarded, truth_all, truth_implies]
  | g :: g' :: gs =>
    rw [guarded_all_cons_cons, truth_all]
    simp only [truth_implies, truth_conj]

/-- an existential formula with guards says something about the values that satisfy them -/
theorem truth_guarded_any (names : List String) (guards : List Term) (body : Term) :
    (guarded .any names guards body).Truth holds v ↔
      ∃ w, v.AgreeOff names w ∧ (∀ g ∈ guards, g.Truth holds w) ∧ body.Truth holds w := by
  match guards with
  | [] => simp [guarded, truth_any]
  | g :: gs =>
    have hparts : ∀ w, (∀ x ∈ if body.operator? = some .conj then body.args else [body],
        x.Truth holds w) ↔ body.Truth holds w := by
      intro w
      split
      · next hconj =>
        have hbody : body = conj body.args := eq_apply_of_operator? hconj
        rw [← truth_conj, ← hbody]
      · rw [List.forall_mem_singleton]
    rw [guarded_any_cons, truth_any]
    simp only [truth_conj, List.forall_mem_append, hparts]

/-! ## a formula with guards -/

theorem relativize_atomic (kb : KnowledgeBase) (type : Place → Option String) {t : Term}
    (ht : t.IsAtomicFormula) : t.relativize kb type = t := by
  cases ht with
  | const _ => exact relativize_atom kb type _
  | @app f args hf _ =>
    exact relativize_application kb type (binder?_app_eq_none args hf.not_quantifier)
      (by simp [hf.2])

end

section

variable {D : Type u} {M : Interpretation D} {kb : KnowledgeBase} {cache : TypeCache} {f : Fragment}

/-- guards are atomic formulas -/
theorem truth_guard {types : List String} {name : String} {g : Term}
    (hg : g ∈ kb.guardsOf name types) {w : Valuation D} : g.Truth M.holds w ↔ M.holds w g := by
  rcases List.mem_append.mp hg with hg | hg
  · obtain ⟨c, _, rfl⟩ := List.mem_map.mp hg
    exact truth_app _ (by decide)
  · obtain ⟨c, _, rfl⟩ := List.mem_map.mp hg
    exact truth_app _ (by decide)

/-- the guards of a quantified formula are satisfied by the values that are admitted -/
theorem truth_guards (q : Quantifier) (names : List String) {body : Term}
    (hbody : body.IsFormula IsAtomicFormula f) {w : Valuation D} :
    (∀ g ∈ ((Binder.mk q (.list (names.map atom)) body).frames (Place.type kb cache)).flatMap
        (fun f => f.guards kb), g.Truth M.holds w) ↔ kb.Admits cache M names body w := by
  have hmem : ∀ g, g ∈ ((Binder.mk q (.list (names.map atom)) body).frames
      (Place.type kb cache)).flatMap (fun f => f.guards kb) ↔
        ∃ n ∈ names, g ∈ body.guardsFor kb cache n := by
    intro g
    rw [Binder.mem_guards hbody, names_quantified]
  constructor
  · intro h n hn g hg
    exact (truth_guard hg).mp (h g ((hmem g).mpr ⟨n, hn, hg⟩))
  · intro h g hg
    obtain ⟨n, hn, hg⟩ := (hmem g).mp hg
    exact (truth_guard hg).mpr (h n hn g hg)

/-- a formula with guards says what the formula says with quantifiers over sorts -/
theorem truth_relativize {t : Term} (ht : t.IsFormula IsAtomicFormula f) {v : Valuation D} :
    (t.relativize kb (Place.type kb cache)).Truth M.holds v ↔
      t.SortedTruth (kb.Admits cache M) M.holds v := by
  induction ht generalizing v with
  | atomic h => rw [relativize_atomic kb _ h, sortedTruth_atomic h]
  | literal h =>
    rw [neg, relativize_apply kb _ (by decide), List.map_singleton, relativize_atomic kb _ h, ← neg,
      truth_neg, sortedTruth_neg, sortedTruth_atomic h]
  | conj _ ih =>
    rw [conj, relativize_apply kb _ (by decide), ← conj, ← conj, truth_conj, sortedTruth_conj,
      List.forall_mem_map]
    exact forall₂_congr fun x hx => ih x hx
  | disj _ ih =>
    rw [disj, relativize_apply kb _ (by decide), ← disj, ← disj, truth_disj, sortedTruth_disj,
      exists_mem_map]
    exact exists_congr fun x => and_congr_right fun hx => ih x hx
  | neg _ _ ih =>
    rw [neg, relativize_apply kb _ (by decide), List.map_singleton, ← neg, ← neg, truth_neg,
      sortedTruth_neg, ih]
  | implies _ _ _ ihs iht =>
    rw [implies, relativize_apply kb _ (by decide), List.map_cons, List.map_singleton, ← implies,
      ← implies, truth_implies, sortedTruth_implies, ihs, iht]
  | iff _ _ _ ihs iht =>
    rw [iff, relativize_apply kb _ (by decide), List.map_cons, List.map_singleton, ← iff, ← iff,
      truth_iff, sortedTruth_iff, ihs, iht]
  | @quantified q names body _ _ hbody ih =>
    rw [relativize_quantified]
    cases q with
    | all =>
      rw [truth_guarded_all, sortedTruth_all]
      exact forall₂_congr fun w _ => imp_congr (truth_guards .all names hbody) ih
    | any =>
      rw [truth_guarded_any, sortedTruth_any]
      exact exists_congr fun w => and_congr_right fun _ => and_congr (truth_guards .any names hbody) ih

end

/-! ## free variables of a formula with guards -/

section

variable {kb : KnowledgeBase} {cache : TypeCache} {f : Fragment}

theorem mem_freeVariables_guarded {q : Quantifier} {names : List String} {guards : List Term}
    {body : Term} {a : String} (h : a ∈ (guarded q names guards body).freeVariables) :
    a ∉ names ∧ (a ∈ body.freeVariables ∨ ∃ g ∈ guards, a ∈ g.freeVariables) := by
  match q, guards with
  | q, [] =>
    have hbody : a ∈ (quantified q.name names body).freeVariables := by
      cases q <;> exact h
    obtain ⟨ha, hn⟩ := mem_freeVariables_quantified.mp hbody
    exact ⟨hn, .inl ha⟩
  | .all, [g] =>
    obtain ⟨ha, hn⟩ := mem_freeVariables_quantified.mp h
    exact ⟨hn, (mem_freeVariables_implies.mp ha).elim (fun hg => .inr ⟨g, by simp, hg⟩) .inl⟩
  | .all, g :: g' :: gs =>
    obtain ⟨ha, hn⟩ := mem_freeVariables_quantified.mp h
    exact ⟨hn, (mem_freeVariables_implies.mp ha).elim
      (fun hgs => .inr (mem_freeVariables_conj.mp hgs)) .inl⟩
  | .any, g :: gs =>
    rw [guarded_any_cons] at h
    obtain ⟨ha, hn⟩ := mem_freeVariables_quantified.mp h
    obtain ⟨x, hx, ha⟩ := mem_freeVariables_conj.mp ha
    refine ⟨hn, ?_⟩
    rcases List.mem_append.mp hx with hx | hx
    · exact .inr ⟨x, hx, ha⟩
    · -- the parts of a conjunction are spliced in
      split at hx
      · next hconj =>
        rw [eq_apply_of_operator? hconj]
        exact .inl (mem_freeVariables_conj.mpr ⟨x, hx, ha⟩)
      · rw [List.mem_singleton] at hx
        exact .inl (hx ▸ ha)

/-- a guard has its variable free and no other one -/
theorem eq_of_mem_freeVariables_guard {types : List String} {name : String}
    (htypes : ∀ type ∈ types, IsSort type) {g : Term} (hg : g ∈ kb.guardsOf name types) {a : String}
    (ha : a ∈ g.freeVariables) : a = name := by
  have happ : ∀ (relation c : String), Name.IsConstant relation → Name.isVariable c = false →
      a ∈ (app relation [atom name, atom c]).freeVariables → a = name := by
    intro relation c hrelation hc ha
    obtain ⟨x, hx, ha⟩ := (mem_freeVariables_app hrelation.not_quantifier hrelation.1).mp ha
    rcases List.mem_cons.mp hx with rfl | hx
    · exact (mem_freeVariables_atom.mp ha).2
    · rw [List.mem_singleton.mp hx] at ha
      obtain ⟨hvar, -⟩ := mem_freeVariables_atom.mp ha
      rw [hc] at hvar
      cases hvar
  rcases List.mem_append.mp hg with hg | hg
  · obtain ⟨c, hc, rfl⟩ := List.mem_map.mp hg
    obtain ⟨hc, hbase⟩ := List.mem_filter.mp (KnowledgeBase.mem_winnow.mp hc).1
    have hsort := htypes c hc
    rw [IsSort, Option.isNone_iff_eq_none.mp hbase] at hsort
    exact happ _ c ⟨by decide, by decide⟩ hsort ha
  · obtain ⟨c, hc, rfl⟩ := List.mem_map.mp hg
    obtain ⟨type, htype, hbase⟩ := List.mem_filterMap.mp (KnowledgeBase.mem_winnow.mp hc).1
    have hsort := htypes type htype
    rw [IsSort, hbase] at hsort
    exact happ _ c ⟨by decide, by decide⟩ hsort ha

/-- guards bring no free variables -/
theorem mem_freeVariables_relativize (htype : ∀ p type, Place.type kb cache p = some type →
    IsSort type) {t : Term} (ht : t.IsFormula IsAtomicFormula f) {a : String} :
    a ∈ (t.relativize kb (Place.type kb cache)).freeVariables → a ∈ t.freeVariables := by
  refine ht.connectiveInduction
    (motive := fun t => a ∈ (t.relativize kb (Place.type kb cache)).freeVariables →
      a ∈ t.freeVariables)
    (fun t h ha => ?_) (fun o args ho ih ha => ?_) (fun q names body hbody ih ha => ?_)
  · rwa [relativize_atomic kb _ h] at ha
  · rw [relativize_apply kb _ ho, apply, mem_freeVariables_app ho o.not_isVariable,
      exists_mem_map] at ha
    obtain ⟨x, hx, ha⟩ := ha
    exact (mem_freeVariables_app ho o.not_isVariable).mpr ⟨x, hx, ih x hx ha⟩
  · rw [relativize_quantified] at ha
    obtain ⟨hn, ha⟩ := mem_freeVariables_guarded ha
    refine mem_freeVariables_quantified.mpr ⟨?_, hn⟩
    rcases ha with ha | ⟨g, hg, ha⟩
    · exact ih ha
    · obtain ⟨n, hmem, hg⟩ := (Binder.mem_guards hbody).mp hg
      rw [names_quantified] at hmem
      have htypes : ∀ type ∈ body.declaredFor kb cache n, IsSort type := by
        intro type hmem
        obtain ⟨p, _, hp⟩ := List.mem_filterMap.mp hmem
        exact htype p type hp
      rw [eq_of_mem_freeVariables_guard htypes hg ha] at hn
      exact absurd hmem hn

end

/-! ## restricting -/

section

variable {kb : KnowledgeBase} {cache : TypeCache} {f : Fragment}

theorem restrictTypes_fst (kb : KnowledgeBase) (cache : TypeCache) (t : Term) :
    (t.restrictTypes kb cache).1 = t.closeUniversally.relativize kb (Place.type kb cache) :=
  (restrict_eq (r := ⟨[], cache⟩) rfl).1

theorem closeUniversally_cases (t : Term) :
    t.freeVariables = [] ∧ t.closeUniversally = t ∨ t.closeUniversally = t.universalClosure := by
  unfold closeUniversally universalClosure
  split
  · next h => exact .inl ⟨h, rfl⟩
  · exact .inr rfl

theorem isFormula_closeUniversally {t : Term} (ht : t.IsFormula IsAtomicFormula .full) :
    t.closeUniversally.IsFormula IsAtomicFormula .full := by
  rcases t.closeUniversally_cases with ⟨-, h⟩ | h
  · rwa [h]
  · rw [h]
    exact .quantified trivial (fun _ => isVariable_of_mem_freeVariables) ht

theorem freeVariables_closeUniversally (t : Term) (a : String) :
    a ∉ t.closeUniversally.freeVariables := by
  rcases t.closeUniversally_cases with ⟨hnil, h⟩ | h
  · rw [h, hnil]
    exact List.not_mem_nil
  · rw [h, universalClosure, mem_freeVariables_quantified]
    exact fun ha => ha.2 ha.1

theorem sortedTruth_closeUniversally {D : Type u} {M : Interpretation D} {t : Term}
    {v : Valuation D} : t.closeUniversally.SortedTruth (kb.Admits cache M) M.holds v ↔
      t.universalClosure.SortedTruth (kb.Admits cache M) M.holds v := by
  rcases t.closeUniversally_cases with ⟨hnil, h⟩ | h
  · rw [h, universalClosure, hnil, sortedTruth_all]
    constructor
    · intro ht w hw _
      rwa [show w = v from funext fun a => hw a List.not_mem_nil]
    · exact fun ht => ht v (.refl _ v) fun n hn => absurd hn List.not_mem_nil
  · rw [h]

end

/-- A formula restricted to the declared types is true exactly if its universal closure is true with
quantifiers over the values that satisfy the guards of their variables; and it has no free variable.
The cache may remember types, found before, of which none stands for a variable. -/
theorem truth_restrictTypes (told : List Term) {cache : TypeCache} (hcache : cache.Holds IsSort)
    {t : Term} (ht : t.IsFormula IsAtomicFormula .full) :
    (∀ {D : Type u} (M : Interpretation D) (v : Valuation D),
      (t.restrictTypes (.tellAll .empty told) cache).1.Truth M.holds v ↔
        t.universalClosure.SortedTruth (KnowledgeBase.Admits (.tellAll .empty told) cache M)
          M.holds v) ∧
    (t.restrictTypes (.tellAll .empty told) cache).1.freeVariables = [] := by
  have hclosed := isFormula_closeUniversally ht
  rw [restrictTypes_fst]
  refine ⟨fun M v => ?_, List.eq_nil_iff_forall_not_mem.mpr fun a ha => ?_⟩
  · rw [truth_relativize hclosed, sortedTruth_closeUniversally]
  · have htype : ∀ p type, Place.type (.tellAll .empty told) cache p = some type → IsSort type :=
      fun p type => KnowledgeBase.isSort_of_typeIn (KnowledgeBase.faithful_tellAll told) hcache
    exact t.freeVariables_closeUniversally a (mem_freeVariables_relativize htype hclosed ha)

/-- the classes that a variable and the argument of a function of it are declared to be of -/
def barkingTold : List Term :=
  [app "domain" [atom "barks", atom "1", atom "Dog"],
    app "domainSubclass" [atom "kind", atom "1", atom "Animal"]]

/-- something barks and its kind is known -/
def somethingBarks : Term :=
  quantified "exists" ["?Y"] (conj [app "barks" [atom "?Y"], app "known" [app "kind" [atom "?Y"]]])

/-- an existential formula with a guard of either kind, put before the parts of its conjunction -/
theorem truth_restrictTypes_barks : TypeCache.empty.Holds IsSort ∧
    somethingBarks.IsFormula IsAtomicFormula .full ∧
    (somethingBarks.restrictTypes (.tellAll .empty barkingTold) .empty).1 =
      quantified "exists" ["?Y"] (conj [app "instance" [atom "?Y", atom "Dog"],
        app "subclass" [atom "?Y", atom "Animal"], app "barks" [atom "?Y"],
        app "known" [app "kind" [atom "?Y"]]]) ∧
    (∀ {D : Type u} (M : Interpretation D) (v : Valuation D),
      (somethingBarks.restrictTypes (.tellAll .empty barkingTold) .empty).1.Truth M.holds v ↔
        somethingBarks.universalClosure.SortedTruth
          (KnowledgeBase.Admits (.tellAll .empty barkingTold) .empty M) M.holds v) ∧
    (somethingBarks.restrictTypes (.tellAll .empty barkingTold) .empty).1.freeVariables = [] := by
  have hY : (atom "?Y").IsIndividual := .var (by decide)
  have hbarks : (app "barks" [atom "?Y"]).IsAtomicFormula :=
    .app ⟨by decide, by decide⟩ (List.forall_mem_singleton.mpr hY)
  have hknown : (app "known" [app "kind" [atom "?Y"]]).IsAtomicFormula :=
    .app ⟨by decide, by decide⟩ (List.forall_mem_singleton.mpr
      (.app ⟨by decide, by decide⟩ (List.forall_mem_singleton.mpr hY)))
  have hformula : somethingBarks.IsFormula IsAtomicFormula .full := by
    refine .quantified (q := .any) trivial (List.forall_mem_singleton.mpr (by decide)) (.conj ?_)
    exact List.forall_mem_cons.mpr ⟨.atomic hbarks, List.forall_mem_singleton.mpr (.atomic hknown)⟩
  obtain ⟨htruth, hfree⟩ := truth_restrictTypes barkingTold TypeCache.holds_empty hformula
  exact ⟨TypeCache.holds_empty, hformula, by cbv, htruth, hfree⟩

end Term

end OntologyPrep
