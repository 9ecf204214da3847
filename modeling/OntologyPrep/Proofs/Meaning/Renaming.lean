import OntologyPrep.Proofs.Fresh.Renaming
import OntologyPrep.Proofs.Meaning.FirstOrder

/-!
# Renamed formulas say the same

A formula with its variables renamed is true for some values exactly if the formula is for the values
of the new names (`Term.truth_renames`), as long as the new bound names are all different and none of
them is the new name of a free variable.  Read for all values the two are the same
(`Term.models_renameApart`).
-/

namespace OntologyPrep

universe u

/-! ## lists in parallel -/

theorem map_eq_map_of_zip {α β : Type} {γ : Type u} {f : α → γ} {g : β → γ} {xs : List α}
    {ys : List β} (hlen : ys.length = xs.length) (h : ∀ p ∈ xs.zip ys, g p.2 = f p.1) :
    ys.map g = xs.map f := by
  induction xs generalizing ys with
  | nil => rw [List.eq_nil_of_length_eq_zero hlen, List.map_nil, List.map_nil]
  | cons x xs ih =>
    cases ys with
    | nil => cases hlen
    | cons y ys =>
      rw [List.map_cons, List.map_cons, h (x, y) (by simp),
        ih (by simpa using hlen) fun p hp => h p (by simp [hp])]

section

variable {α β : Type} {P : α → Prop} {Q : β → Prop} {xs : List α} {ys : List β}
  (hlen : ys.length = xs.length) (h : ∀ p ∈ xs.zip ys, Q p.2 ↔ P p.1)

include hlen h

theorem forall_mem_iff_of_zip : (∀ y ∈ ys, Q y) ↔ ∀ x ∈ xs, P x := by
  constructor
  · intro hall x hx
    obtain ⟨y, hp⟩ := exists_mem_zip_left hlen hx
    exact (h _ hp).mp (hall y (List.of_mem_zip hp).2)
  · exact fun hall => forall_mem_of_zip hlen fun p hp => (h p hp).mpr (hall p.1 (List.of_mem_zip hp).1)

theorem exists_mem_iff_of_zip : (∃ y ∈ ys, Q y) ↔ ∃ x ∈ xs, P x := by
  constructor
  · rintro ⟨y, hy, hQ⟩
    obtain ⟨x, hp⟩ := exists_mem_zip_right hlen hy
    exact ⟨x, (List.of_mem_zip hp).1, (h _ hp).mp hQ⟩
  · rintro ⟨x, hx, hP⟩
    obtain ⟨y, hp⟩ := exists_mem_zip_left hlen hx
    exact ⟨y, (List.of_mem_zip hp).2, (h _ hp).mpr hP⟩

end

namespace Term

variable {ρ : String → String}

theorem Renames.exists_args {head : String} {args : List Term} {t' : Term}
    (h : Renames ρ (app head args) t') (hv : Name.isVariable head = false)
    (hq : Name.isQuantifier head = false) : ∃ args', t' = app head args' ∧
      args'.length = args.length ∧ ∀ p ∈ args.zip args', Renames ρ p.1 p.2 := by
  generalize he : app head args = t at h
  cases h with
  | const _ => cases he
  | var _ _ => cases he
  | @binder _ b _ _ _ _ _ =>
    have hb := binder?_app_eq_none args hq
    rw [he, binder?_toTerm] at hb
    cases hb
  | @list _ xs ys _ hlen hzip =>
    obtain rfl := Term.list.inj he
    cases ys with
    | nil => cases hlen
    | cons y ys =>
      have hhead := hzip (.atom head, y) (by simp)
      generalize hx : (Term.atom head) = x at hhead
      cases hhead with
      | const _ =>
        exact ⟨ys, by rw [← hx]; rfl, by simpa using hlen, fun p hp => hzip p (by simp [hp])⟩
      | var ha _ =>
        rw [← Term.atom.inj hx, hv] at ha
        cases ha
      | binder _ _ _ => cases hx
      | list _ _ _ => cases hx

theorem Renames.exists_body {q : Quantifier} {names : List String} {body t' : Term}
    (h : Renames ρ (quantified q.name names body) t') : ∃ news body',
      t' = quantified q.name news body' ∧ news.length = names.length ∧
      (∀ n ∈ news, Name.isVariable n = true) ∧
      Renames (rebind ρ names news) body body' := by
  have hsome := binder?_quantified q names body
  generalize he : quantified q.name names body = t at h hsome
  cases h with
  | const _ => cases he
  | var _ _ => cases he
  | @binder _ b news body' hlen hvars hbody =>
    rw [binder?_toTerm] at hsome
    obtain rfl := Option.some.inj hsome
    rw [names_quantified] at hlen hbody
    exact ⟨news, body', rfl, hlen, hvars, hbody⟩
  | list hb _ _ =>
    rw [hb] at hsome
    cases hsome

/-! ## what a term is stays -/

theorem Renames.isIndividual {t : Term} (ht : t.IsIndividual) {t' : Term} (h : Renames ρ t t') :
    t'.IsIndividual := by
  induction ht generalizing t' with
  | var ha =>
    cases h with
    | const hc =>
      rw [ha] at hc
      cases hc
    | var _ hv => exact .var hv
  | const ha =>
    cases h with
    | const _ => exact .const ha
    | var hv _ =>
      rw [ha.1] at hv
      cases hv
  | @app f args hf _ ih =>
    obtain ⟨args', rfl, hlen, hzip⟩ := h.exists_args hf.1 hf.not_quantifier
    exact .app hf (forall_mem_of_zip hlen fun p hp => ih p.1 (List.of_mem_zip hp).1 (hzip p hp))

theorem Renames.eq_of_constant {a : String} (ha : Name.isVariable a = false) {t' : Term}
    (h : Renames ρ (.atom a) t') : t' = .atom a := by
  generalize he : Term.atom a = t at h
  cases h with
  | const _ => rfl
  | var hv _ =>
    rw [← Term.atom.inj he, ha] at hv
    cases hv
  | binder _ _ _ => cases he
  | list _ _ _ => cases he

theorem Renames.isAtomicFormula {t : Term} (ht : t.IsAtomicFormula) {t' : Term}
    (h : Renames ρ t t') : t'.IsAtomicFormula := by
  cases ht with
  | const ha => exact h.eq_of_constant ha.1 ▸ .const ha
  | @app f args hf hargs =>
    obtain ⟨args', rfl, hlen, hzip⟩ := h.exists_args hf.1 hf.not_quantifier
    exact .app hf (forall_mem_of_zip hlen fun p hp =>
      (hzip p hp).isIndividual (hargs p.1 (List.of_mem_zip hp).1))

/-- the renamed arguments of an operator -/
theorem Renames.exists_operands {o : Operator} (ho : Name.isQuantifier o.name = false)
    {args : List Term} {t' : Term} (h : Renames ρ (apply o args) t') : ∃ args',
      t' = apply o args' ∧ args'.length = args.length ∧
        ∀ p ∈ args.zip args', Renames ρ p.1 p.2 :=
  h.exists_args (by rcases o with _ | _ | _ | _ | _ | (_ | _) <;> decide) ho

theorem exists_pair {s t : Term} {args' : List Term} (hlen : args'.length = [s, t].length)
    (h : ∀ p ∈ [s, t].zip args', Renames ρ p.1 p.2) :
    ∃ s' t', args' = [s', t'] ∧ Renames ρ s s' ∧ Renames ρ t t' := by
  match args', hlen with
  | [s', t'], _ => exact ⟨s', t', rfl, h (s, s') (by simp), h (t, t') (by simp)⟩

theorem exists_single {t : Term} {args' : List Term} (hlen : args'.length = [t].length)
    (h : ∀ p ∈ [t].zip args', Renames ρ p.1 p.2) : ∃ t', args' = [t'] ∧ Renames ρ t t' := by
  match args', hlen with
  | [t'], _ => exact ⟨t', rfl, h (t, t') (by simp)⟩

/-- renaming keeps a formula in its fragment if it keeps atomic formulas atomic -/
theorem Renames.isFormula {P : Term → Prop}
    (hP : ∀ {ρ : String → String} {s s' : Term}, P s → Renames ρ s s' → P s') {f : Fragment}
    {t : Term} (ht : t.IsFormula P f) {t' : Term} (h : Renames ρ t t') : t'.IsFormula P f := by
  induction ht generalizing ρ t' with
  | atomic ha => exact .atomic (hP ha h)
  | literal ha =>
    obtain ⟨args', rfl, hlen, hzip⟩ := h.exists_operands (by decide)
    obtain ⟨u', rfl, hu⟩ := exists_single hlen hzip
    exact .literal (hP ha hu)
  | @conj args _ ih =>
    obtain ⟨args', rfl, hlen, hzip⟩ := h.exists_operands (by decide)
    exact .conj (forall_mem_of_zip hlen fun p hp => ih p.1 (List.of_mem_zip hp).1 (hzip p hp))
  | @disj args _ ih =>
    obtain ⟨args', rfl, hlen, hzip⟩ := h.exists_operands (by decide)
    exact .disj (forall_mem_of_zip hlen fun p hp => ih p.1 (List.of_mem_zip hp).1 (hzip p hp))
  | neg hn _ ih =>
    obtain ⟨args', rfl, hlen, hzip⟩ := h.exists_operands (by decide)
    obtain ⟨u', rfl, hu⟩ := exists_single hlen hzip
    exact .neg hn (ih hu)
  | implies ha _ _ ihs iht =>
    obtain ⟨args', rfl, hlen, hzip⟩ := h.exists_operands (by decide)
    obtain ⟨s', u', rfl, hs, hu⟩ := exists_pair hlen hzip
    exact .implies ha (ihs hs) (iht hu)
  | iff ha _ _ ihs iht =>
    obtain ⟨args', rfl, hlen, hzip⟩ := h.exists_operands (by decide)
    obtain ⟨s', u', rfl, hs, hu⟩ := exists_pair hlen hzip
    exact .iff ha (ihs hs) (iht hu)
  | quantified hq _ _ ih =>
    obtain ⟨news, body', rfl, _, hnews, hbody⟩ := h.exists_body
    exact .quantified hq hnews (ih hbody)

/-- renaming keeps a positive combination of literals one if it keeps the literals -/
theorem Renames.isPositive {L : Term → Prop}
    (hL : ∀ {ρ : String → String} {s s' : Term}, L s → Renames ρ s s' → L s')
    {allowed : Quantifier → Prop} {t : Term} (ht : t.IsPositive L allowed) {t' : Term}
    (h : Renames ρ t t') : t'.IsPositive L allowed := by
  induction ht generalizing ρ t' with
  | literal ha => exact .literal (hL ha h)
  | @conj args _ ih =>
    obtain ⟨args', rfl, hlen, hzip⟩ := h.exists_operands (by decide)
    exact .conj (forall_mem_of_zip hlen fun p hp => ih p.1 (List.of_mem_zip hp).1 (hzip p hp))
  | @disj args _ ih =>
    obtain ⟨args', rfl, hlen, hzip⟩ := h.exists_operands (by decide)
    exact .disj (forall_mem_of_zip hlen fun p hp => ih p.1 (List.of_mem_zip hp).1 (hzip p hp))
  | quantified hq _ _ ih =>
    obtain ⟨news, body', rfl, _, hnews, hbody⟩ := h.exists_body
    exact .quantified hq hnews (ih hbody)

/-! ## what a term says stays -/

variable {D : Type u} {M : Interpretation D}

theorem denote_renames {t : Term} (ht : t.IsIndividual) {t' : Term} (h : Renames ρ t t')
    {v w : Valuation D} (hvw : ∀ a ∈ t.freeVariables, v a = w (ρ a)) :
    M.denote w t' = M.denote v t := by
  induction ht generalizing t' with
  | @var a ha =>
    cases h with
    | const hc =>
      rw [ha] at hc
      cases hc
    | var _ hv =>
      rw [Interpretation.denote_variable _ _ ha, Interpretation.denote_variable _ _ hv]
      exact (hvw a (mem_freeVariables_atom.mpr ⟨ha, rfl⟩)).symm
  | const ha =>
    rw [h.eq_of_constant ha.1, Interpretation.denote_constant _ _ ha.1,
      Interpretation.denote_constant _ _ ha.1]
  | @app f args hf _ ih =>
    obtain ⟨args', rfl, hlen, hzip⟩ := h.exists_args hf.1 hf.not_quantifier
    rw [Interpretation.denote_app, Interpretation.denote_app]
    congr 1
    refine map_eq_map_of_zip hlen fun p hp => ?_
    have hmem := (List.of_mem_zip hp).1
    refine ih p.1 hmem (hzip p hp) fun a ha => hvw a ?_
    exact (mem_freeVariables_app hf.not_quantifier hf.1).mpr ⟨p.1, hmem, ha⟩

theorem truth_renames_of_isAtomicFormula {t : Term} (ht : t.IsAtomicFormula) {t' : Term}
    (h : Renames ρ t t') {v w : Valuation D} (hvw : ∀ a ∈ t.freeVariables, v a = w (ρ a)) :
    t'.Truth M.holds w ↔ t.Truth M.holds v := by
  refine truth_iff_of_isAtomicFormula ht (fun a he => ?_) (fun f args he => ?_) rfl
  · subst he
    cases ht with
    | const ha => exact h.eq_of_constant ha.1
  · subst he
    cases ht with
    | app hf hargs =>
      obtain ⟨args', rfl, hlen, hzip⟩ := h.exists_args hf.1 hf.not_quantifier
      refine ⟨args', rfl, map_eq_map_of_zip hlen fun p hp => ?_⟩
      have hmem := (List.of_mem_zip hp).1
      refine denote_renames (hargs p.1 hmem) (hzip p hp) fun a ha => hvw a ?_
      exact (mem_freeVariables_app hf.not_quantifier hf.1).mpr ⟨p.1, hmem, ha⟩

/-- values for old names carried over to new ones, and back: what is said of a body can be said of its
renaming -/
theorem exists_agreeOff_renamed {names news : List String} {v w : Valuation D} {body : Term}
    (hlen : news.length = names.length) (hnodup : news.Nodup)
    (hvw : ∀ a ∈ body.freeVariables, a ∉ names → v a = w (ρ a) ∧ ρ a ∉ news) :
    (∀ v', v.AgreeOff names v' → ∃ w', w.AgreeOff news w' ∧
        ∀ a ∈ body.freeVariables, v' a = w' (rebind ρ names news a)) ∧
      ∀ w', w.AgreeOff news w' → ∃ v', v.AgreeOff names v' ∧
        ∀ a ∈ body.freeVariables, v' a = w' (rebind ρ names news a) := by
  constructor
  · intro v' hv'
    -- different bound names have different new names, so that each new name gets one value
    let w' : Valuation D := fun n =>
      open Classical in
      if h : ∃ a ∈ names, rebind ρ names news a = n then v' h.choose else w n
    have hbound : ∀ a ∈ names, w' (rebind ρ names news a) = v' a := by
      intro a ha
      have h : ∃ b ∈ names, rebind ρ names news b = rebind ρ names news a := ⟨a, ha, rfl⟩
      have hchoose := h.choose_spec
      show dite _ _ _ = _
      rw [dif_pos h, rebind_inj hlen hnodup hchoose.1 ha hchoose.2]
    have hother : ∀ n, n ∉ news → w' n = w n := by
      intro n hn
      show dite _ _ _ = _
      rw [dif_neg]
      rintro ⟨a, ha, rfl⟩
      exact hn (rebind_mem hlen ha)
    refine ⟨w', hother, fun a ha => ?_⟩
    by_cases hn : a ∈ names
    · exact (hbound a hn).symm
    · obtain ⟨hva, hρ⟩ := hvw a ha hn
      rw [rebind_of_not_mem hn, hother _ hρ, hv' a hn, hva]
  · intro w' hw'
    refine ⟨Valuation.override names v fun a => w' (rebind ρ names news a),
      Valuation.agreeOff_override _ _ _, fun a ha => ?_⟩
    by_cases hn : a ∈ names
    · rw [Valuation.override_of_mem hn]
    · obtain ⟨hva, hρ⟩ := hvw a ha hn
      rw [Valuation.override_of_not_mem hn, rebind_of_not_mem hn, hw' _ hρ, hva]

/-- the new bound names are all different, and none of them is the new name of a free variable -/
structure Clear (ρ : String → String) (t t' : Term) : Prop where
  nodup : t'.bound.Nodup
  free : ∀ a ∈ t.freeVariables, ρ a ∉ t'.bound

theorem Clear.part {args args' : List Term} {t t' : Term} (h : Clear ρ t t')
    (hbound : t'.bound = args'.flatMap bound)
    (hfree : ∀ a, (∃ x ∈ args, a ∈ x.freeVariables) → a ∈ t.freeVariables) {p : Term × Term}
    (hp : p ∈ args.zip args') : Clear ρ p.1 p.2 := by
  obtain ⟨h1, h2⟩ := List.of_mem_zip hp
  have hsub := sublist_bound_of_mem h2
  rw [← hbound] at hsub
  exact ⟨h.nodup.sublist hsub, fun a ha hb => h.free a (hfree a ⟨p.1, h1, ha⟩) (hsub.subset hb)⟩

theorem Clear.operands {o : Operator} (ho : Name.isQuantifier o.name = false)
    {args args' : List Term} (h : Clear ρ (apply o args) (apply o args')) {v w : Valuation D}
    (hvw : ∀ a ∈ (apply o args).freeVariables, v a = w (ρ a)) :
    ∀ p ∈ args.zip args', Clear ρ p.1 p.2 ∧ ∀ a ∈ p.1.freeVariables, v a = w (ρ a) := by
  have hfree : ∀ a, (∃ x ∈ args, a ∈ x.freeVariables) → a ∈ (apply o args).freeVariables :=
    fun a => (mem_freeVariables_app ho (Operator.not_isVariable o)).mpr
  intro p hp
  exact ⟨h.part (bound_app ho _) hfree hp,
    fun a ha => hvw a (hfree a ⟨p.1, (List.of_mem_zip hp).1, ha⟩)⟩

theorem Clear.body {q : Quantifier} {names news : List String} {body body' : Term}
    (h : Clear ρ (quantified q.name names body) (quantified q.name news body'))
    (hlen : news.length = names.length) :
    news.Nodup ∧ (∀ a ∈ body.freeVariables, a ∉ names → ρ a ∉ news) ∧
      Clear (rebind ρ names news) body body' := by
  obtain ⟨hnodup, hfree⟩ := h
  rw [bound_quantified] at hnodup hfree
  obtain ⟨hnews, hinner, hdisjoint⟩ := List.nodup_append.mp hnodup
  have hout : ∀ a ∈ body.freeVariables, a ∉ names → ρ a ∉ news ++ body'.bound :=
    fun a ha hn => hfree a (mem_freeVariables_quantified.mpr ⟨ha, hn⟩)
  refine ⟨hnews, fun a ha hn hmem => hout a ha hn (List.mem_append_left _ hmem), hinner,
    fun a ha hb => ?_⟩
  by_cases hn : a ∈ names
  · exact hdisjoint _ (rebind_mem hlen hn) _ hb rfl
  · rw [rebind_of_not_mem hn] at hb
    exact hout a ha hn (List.mem_append_right _ hb)

/-- a renamed formula is true for some values exactly if the formula is true for the values of the new
names -/
theorem truth_renames {f : Fragment} {t : Term} (ht : t.IsFormula IsAtomicFormula f) {t' : Term}
    (h : Renames ρ t t') (hclear : Clear ρ t t') {v w : Valuation D}
    (hvw : ∀ a ∈ t.freeVariables, v a = w (ρ a)) : t'.Truth M.holds w ↔ t.Truth M.holds v := by
  induction ht generalizing ρ t' v w with
  | atomic hP => exact truth_renames_of_isAtomicFormula hP h hvw
  | literal hP =>
    obtain ⟨args', rfl, hlen, hzip⟩ := h.exists_operands (by decide)
    obtain ⟨u', rfl, hu⟩ := exists_single hlen hzip
    rw [← neg, truth_neg, truth_neg]
    refine not_congr (truth_renames_of_isAtomicFormula hP hu fun a ha => hvw a ?_)
    exact mem_freeVariables_neg.mpr ha
  | @conj args _ ih =>
    obtain ⟨args', rfl, hlen, hzip⟩ := h.exists_operands (by decide)
    have hparts := Clear.operands (o := .conj) (by decide) hclear hvw
    rw [← Term.conj, truth_conj, truth_conj]
    exact forall_mem_iff_of_zip hlen fun p hp =>
      ih p.1 (List.of_mem_zip hp).1 (hzip p hp) (hparts p hp).1 (hparts p hp).2
  | @disj args _ ih =>
    obtain ⟨args', rfl, hlen, hzip⟩ := h.exists_operands (by decide)
    have hparts := Clear.operands (o := .disj) (by decide) hclear hvw
    rw [← Term.disj, truth_disj, truth_disj]
    exact exists_mem_iff_of_zip hlen fun p hp =>
      ih p.1 (List.of_mem_zip hp).1 (hzip p hp) (hparts p hp).1 (hparts p hp).2
  | @neg u _ _ ih =>
    obtain ⟨args', rfl, hlen, hzip⟩ := h.exists_operands (by decide)
    obtain ⟨u', rfl, hu⟩ := exists_single hlen hzip
    obtain ⟨hclearu, hvwu⟩ := Clear.operands (o := .neg) (by decide) hclear hvw (u, u') (by simp)
    rw [← neg, truth_neg, truth_neg]
    exact not_congr (ih hu hclearu hvwu)
  | @implies s u _ _ _ ihs ihu =>
    obtain ⟨args', rfl, hlen, hzip⟩ := h.exists_operands (by decide)
    obtain ⟨s', u', rfl, hs, hu⟩ := exists_pair hlen hzip
    have hparts := Clear.operands (o := .implies) (by decide) hclear hvw
    obtain ⟨hclears, hvws⟩ := hparts (s, s') (by simp)
    obtain ⟨hclearu, hvwu⟩ := hparts (u, u') (by simp)
    rw [← Term.implies, truth_implies, truth_implies]
    exact imp_congr (ihs hs hclears hvws) (ihu hu hclearu hvwu)
  | @iff s u _ _ _ ihs ihu =>
    obtain ⟨args', rfl, hlen, hzip⟩ := h.exists_operands (by decide)
    obtain ⟨s', u', rfl, hs, hu⟩ := exists_pair hlen hzip
    have hparts := Clear.operands (o := .iff) (by decide) hclear hvw
    obtain ⟨hclears, hvws⟩ := hparts (s, s') (by simp)
    obtain ⟨hclearu, hvwu⟩ := hparts (u, u') (by simp)
    rw [← Term.iff, truth_iff, truth_iff]
    exact iff_congr (ihs hs hclears hvws) (ihu hu hclearu hvwu)
  | @quantified q names body _ _ _ ih =>
    obtain ⟨news, body', rfl, hlen, _, hbody⟩ := h.exists_body
    obtain ⟨hnews, hout, hclear'⟩ := hclear.body hlen
    obtain ⟨hforth, hback⟩ := @exists_agreeOff_renamed ρ D names news v w body hlen
      hnews fun a ha hn => ⟨hvw a (mem_freeVariables_quantified.mpr ⟨ha, hn⟩), hout a ha hn⟩
    refine truth_quantified_transfer q (fun w' hw' => ?_) fun v' hv' => ?_
    · obtain ⟨v', hv', hval⟩ := hback w' hw'
      exact ⟨v', hv', ih hbody hclear' hval⟩
    · obtain ⟨w', hw', hval⟩ := hforth v' hv'
      exact ⟨w', hw', ih hbody hclear' hval⟩

/-! ## all variables renamed -/

/-- the free variables of a renamed term are the new names of free variables -/
theorem Renames.exists_of_mem_freeVariables {t t' : Term} (h : Renames ρ t t') {a : String}
    (ha : a ∈ t'.freeVariables) : ∃ b ∈ t.freeVariables, a = ρ b := by
  induction h with
  | const hc =>
    have hvar := (mem_freeVariables_atom.mp ha).1
    rw [hc] at hvar
    cases hvar
  | @var ρ b hb _ => exact ⟨b, mem_freeVariables_atom.mpr ⟨hb, rfl⟩, (mem_freeVariables_atom.mp ha).2⟩
  | @binder ρ b news body hlen _ _ ih =>
    obtain ⟨ha, hn⟩ := mem_freeVariables_quantified.mp ha
    obtain ⟨c, hc, rfl⟩ := ih ha
    have hout : c ∉ b.names := fun hmem => hn (rebind_mem hlen hmem)
    exact ⟨c, mem_freeVariables_binder.mpr ⟨hc, hout⟩, rebind_of_not_mem hout⟩
  | @list ρ xs ys hb hlen hzip ih =>
    obtain ⟨y, hy, ha⟩ := (mem_freeVariables_list (Renames.binder?_eq_none hb hlen hzip)).mp ha
    obtain ⟨x, hp⟩ := exists_mem_zip_right hlen hy
    obtain ⟨c, hc, rfl⟩ := ih _ hp ha
    exact ⟨c, (mem_freeVariables_list hb).mpr ⟨x, (List.of_mem_zip hp).1, hc⟩, rfl⟩

theorem RenamedApart.clear {t t' : Term} {s s' : Supply} {names : List String}
    {added : List (String × String)} (h : RenamedApart t t' s s' names added)
    (hdraws : t.renamingDraws < 2 ^ 32) : Clear (fun a => (added.lookup a).getD a) t t' := by
  obtain ⟨hbound, _, hdisjoint⟩ := List.nodup_append.mp (h.nodup hdraws)
  exact ⟨hbound, fun a ha hb => hdisjoint _ hb _ (h.mem_values ha) rfl⟩

/-- with all variables renamed no name is bound twice, or both free and bound -/
theorem RenamedApart.isApart {t t' : Term} {s s' : Supply} {names : List String}
    {added : List (String × String)} (h : RenamedApart t t' s s' names added)
    (hdraws : t.renamingDraws < 2 ^ 32) : t'.Apart where
  nodup := (h.clear hdraws).nodup
  disjoint a ha hb := by
    obtain ⟨b, hb', rfl⟩ := h.renames.exists_of_mem_freeVariables ha
    exact (h.clear hdraws).free b hb' hb

/-- a formula with all variables renamed is a formula that says the same, read for all values, and it
has no name twice for different variables -/
theorem renameApart_keeps {f : Fragment} {t : Term} (ht : t.IsFormula IsAtomicFormula f)
    (links : RenameMap) {s : Supply} (hdraws : t.renamingDraws < 2 ^ 32) :
    (t.renameApart links s).1.1.IsFormula IsAtomicFormula f ∧ (t.renameApart links s).1.1.Apart ∧
      ∀ M : Interpretation D, M.Models (t.renameApart links s).1.1 ↔ M.Models t := by
  obtain ⟨names, added, hspec⟩ := renameApart_spec t links s
  have hrenames := hspec.renames
  have hclear := hspec.clear hdraws
  refine ⟨hrenames.isFormula (fun ha h => h.isAtomicFormula ha) ht, hspec.isApart hdraws,
    fun M => ⟨fun hmodels v => ?_, fun hmodels w => ?_⟩⟩
  · -- different free variables have different new names, so that each new name gets one value
    let w : Valuation D := fun n =>
      open Classical in
      if h : ∃ a ∈ t.freeVariables, (added.lookup a).getD a = n then v h.choose else v n
    refine (truth_renames ht hrenames hclear (w := w) fun a ha => ?_).mp (hmodels w)
    have h : ∃ b ∈ t.freeVariables, (added.lookup b).getD b = (added.lookup a).getD a := ⟨a, ha, rfl⟩
    obtain ⟨hb, he⟩ := h.choose_spec
    show v a = dite _ _ _
    rw [dif_pos h, hspec.inj hdraws hb ha he]
  · exact (truth_renames ht hrenames hclear fun a _ => rfl).mpr (hmodels _)

end Term

end OntologyPrep
