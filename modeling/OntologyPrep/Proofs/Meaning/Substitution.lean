import Mathlib.Logic.Function.Basic
import OntologyPrep.Proofs.Meaning.FirstOrder
import OntologyPrep.Proofs.Term.Bound
import OntologyPrep.Term.Substitution

/-!
# Substitution and truth

A formula with a term in the place of a name is true for some values exactly if the formula is true
where the name has the value of the term (`Term.truth_substitute`).  Substitution does not rename, so
the names that the value of the term depends on must not be bound in the formula.
-/

namespace OntologyPrep

universe u

namespace Valuation

variable {D : Type u} {names : List String} {name : String} {v w : Valuation D}

/-- valuations that agree off some names still do with the same value for a name -/
theorem AgreeOff.update (h : AgreeOff names v w) (name : String) (d : D) :
    AgreeOff names (Function.update v name d) (Function.update w name d) := by
  intro a ha
  by_cases he : a = name
  · rw [he, Function.update_self, Function.update_self]
  · rw [Function.update_of_ne he, Function.update_of_ne he, h a ha]

/-- what agrees off other names with a valuation that has a value for the name has that value as well -/
theorem AgreeOff.exists_update (hn : name ∉ names) {d : D}
    (h : AgreeOff names (Function.update v name d) w) :
    ∃ w', AgreeOff names v w' ∧ Function.update w' name d = w := by
  have hname : w name = d := by rw [h name hn, Function.update_self]
  refine ⟨Function.update w name (v name), fun a ha => ?_, ?_⟩
  · by_cases he : a = name
    · rw [he, Function.update_self]
    · rw [Function.update_of_ne he, h a ha, Function.update_of_ne he]
  · rw [Function.update_idem, ← hname, Function.update_eq_self]

end Valuation

namespace Term

variable {name : String} {value : Term}

/-! ## where a name is replaced -/

theorem substitute_app {head : String} (hq : Name.isQuantifier head = false) (hne : head ≠ name)
    (args : List Term) : (app head args).substitute name value =
      app head (args.map fun x => x.substitute name value) := by
  have hb : (list (.atom head :: args)).binder? = none := binder?_app_eq_none args hq
  have hbound : name ∉ (list (.atom head :: args)).boundNames := by
    rw [boundNames_of_binder?_eq_none hb]
    exact List.not_mem_nil
  rw [app, substitute_list value hbound, List.map_cons, substitute_atom, if_neg hne]
  rfl

theorem substitute_apply (hvar : Name.isVariable name = true) {o : Operator}
    (ho : Name.isQuantifier o.name = false) (args : List Term) :
    (apply o args).substitute name value =
      apply o (args.map fun x => x.substitute name value) := by
  refine substitute_app ho (fun he => ?_) args
  rw [← he] at hvar
  rcases o with _ | _ | _ | _ | _ | (_ | _) <;> exact absurd hvar (by decide)

theorem substitute_neg (hvar : Name.isVariable name = true) (t : Term) :
    t.neg.substitute name value = (t.substitute name value).neg :=
  substitute_apply hvar (by decide) [t]

theorem boundNames_quantified (q : Quantifier) (names : List String) (body : Term) :
    (quantified q.name names body).boundNames = names := by
  rw [quantified_eq_toTerm, boundNames_binder, names_quantified]

theorem substitute_quantified_of_mem (q : Quantifier) {names : List String} (body : Term)
    (h : name ∈ names) :
    (quantified q.name names body).substitute name value = quantified q.name names body := by
  refine substitute_of_bound value ?_
  rw [boundNames_quantified]
  exact h

theorem substitute_quantified_of_not_mem (hvar : Name.isVariable name = true) (q : Quantifier)
    {names : List String} (body : Term) (h : name ∉ names) :
    (quantified q.name names body).substitute name value =
      quantified q.name names (body.substitute name value) := by
  have hentries : (list (names.map atom)).substitute name value = .list (names.map atom) := by
    by_cases hb : name ∈ (list (names.map atom)).boundNames
    · exact substitute_of_bound value hb
    · rw [substitute_list value hb, List.map_map]
      refine congrArg list (List.map_congr_left fun a ha => ?_)
      rw [Function.comp_apply, substitute_atom, if_neg]
      rintro rfl
      exact h ha
  have hhead : q.name ≠ name := by
    rintro rfl
    rw [Quantifier.not_isVariable] at hvar
    cases hvar
  have hbound : name ∉ (list [.atom q.name, .list (names.map atom), body]).boundNames := by
    have := boundNames_quantified q names body
    rw [quantified, app] at this
    rw [this]
    exact h
  show (list [.atom q.name, .list (names.map atom), body]).substitute name value = _
  rw [substitute_list value hbound, List.map_cons, List.map_cons, List.map_cons, List.map_nil,
    hentries, substitute_atom, if_neg hhead]
  rfl

/-! ## what a term with a replaced name is -/

theorem IsIndividual.substitute {t : Term} (ht : t.IsIndividual)
    (hvar : Name.isVariable name = true) (hvalue : value.IsIndividual) :
    (t.substitute name value).IsIndividual := by
  induction ht with
  | var ha =>
    rw [substitute_atom]
    split
    · exact hvalue
    · exact .var ha
  | const ha =>
    rw [substitute_atom]
    split
    · exact hvalue
    · exact .const ha
  | @app f args hf _ ih =>
    rw [substitute_app hf.not_quantifier (Name.ne_of_isVariable hvar hf.1).symm]
    exact .app hf (List.forall_mem_map.mpr ih)

theorem IsAtomicFormula.substitute {t : Term} (ht : t.IsAtomicFormula)
    (hvar : Name.isVariable name = true) (hvalue : value.IsIndividual) :
    (t.substitute name value).IsAtomicFormula := by
  cases ht with
  | const ha =>
    rw [substitute_atom, if_neg (Name.ne_of_isVariable hvar ha.1).symm]
    exact .const ha
  | app hf hargs =>
    rw [substitute_app hf.not_quantifier (Name.ne_of_isVariable hvar hf.1).symm]
    exact .app hf (List.forall_mem_map.mpr fun x hx => (hargs x hx).substitute hvar hvalue)

/-- replacing a name keeps a formula in its fragment if it keeps atomic formulas atomic -/
theorem IsFormula.substitute {P : Term → Prop} {f : Fragment} {t : Term} (ht : t.IsFormula P f)
    (hvar : Name.isVariable name = true) (hP : ∀ s, P s → P (s.substitute name value)) :
    (t.substitute name value).IsFormula P f := by
  induction ht with
  | atomic h => exact .atomic (hP _ h)
  | literal h =>
    rw [substitute_neg hvar]
    exact .literal (hP _ h)
  | conj _ ih =>
    rw [Term.conj, substitute_apply hvar (by decide)]
    exact .conj (List.forall_mem_map.mpr ih)
  | disj _ ih =>
    rw [Term.disj, substitute_apply hvar (by decide)]
    exact .disj (List.forall_mem_map.mpr ih)
  | neg hn _ ih =>
    rw [substitute_neg hvar]
    exact .neg hn ih
  | implies ha _ _ ihs iht =>
    rw [Term.implies, substitute_apply hvar (by decide)]
    exact .implies ha ihs iht
  | iff ha _ _ ihs iht =>
    rw [Term.iff, substitute_apply hvar (by decide)]
    exact .iff ha ihs iht
  | @quantified q names body hq hnames hbody ih =>
    by_cases hn : name ∈ names
    · rw [substitute_quantified_of_mem q body hn]
      exact .quantified hq hnames hbody
    · rw [substitute_quantified_of_not_mem hvar q body hn]
      exact .quantified hq hnames ih

theorem IsLiteral.substitute {P : Term → Prop} {t : Term} (ht : t.IsLiteral P)
    (hvar : Name.isVariable name = true) (hP : ∀ s, P s → P (s.substitute name value)) :
    (t.substitute name value).IsLiteral P := by
  cases ht with
  | atomic h => exact .atomic (hP _ h)
  | negated h =>
    rw [substitute_neg hvar]
    exact .negated (hP _ h)

/-- replacing a name in a positive combination of literals that it keeps -/
theorem IsPositive.substitute {L : Term → Prop} {allowed : Quantifier → Prop} {t : Term}
    (ht : t.IsPositive L allowed) (hvar : Name.isVariable name = true)
    (hL : ∀ s, L s → L (s.substitute name value)) : (t.substitute name value).IsPositive L allowed := by
  induction ht with
  | literal h => exact .literal (hL _ h)
  | conj _ ih =>
    rw [Term.conj, substitute_apply hvar (by decide)]
    exact .conj (List.forall_mem_map.mpr ih)
  | disj _ ih =>
    rw [Term.disj, substitute_apply hvar (by decide)]
    exact .disj (List.forall_mem_map.mpr ih)
  | @quantified q names body hq hnames hbody ih =>
    by_cases hn : name ∈ names
    · rw [substitute_quantified_of_mem q body hn]
      exact .quantified hq hnames hbody
    · rw [substitute_quantified_of_not_mem hvar q body hn]
      exact .quantified hq hnames ih

/-! ## the names in it -/

theorem mem_freeVariables_substitute_individual {t : Term} (ht : t.IsIndividual)
    (hvar : Name.isVariable name = true) {a : String}
    (ha : a ∈ (t.substitute name value).freeVariables) :
    a ∈ t.freeVariables ∧ a ≠ name ∨ a ∈ value.freeVariables := by
  induction ht with
  | @var b hb =>
    rw [substitute_atom] at ha
    split at ha
    · exact .inr ha
    · next hne =>
      refine .inl ⟨ha, ?_⟩
      rw [(mem_freeVariables_atom.mp ha).2]
      exact hne
  | @const b hb =>
    rw [substitute_atom, if_neg (Name.ne_of_isVariable hvar hb.1).symm] at ha
    have hvariable := (mem_freeVariables_atom.mp ha).1
    rw [hb.1] at hvariable
    cases hvariable
  | @app g args hg _ ih =>
    rw [substitute_app hg.not_quantifier (Name.ne_of_isVariable hvar hg.1).symm,
      mem_freeVariables_app hg.not_quantifier hg.1, exists_mem_map] at ha
    obtain ⟨x, hx, ha⟩ := ha
    refine (ih x hx ha).imp_left fun h => ⟨?_, h.2⟩
    exact (mem_freeVariables_app hg.not_quantifier hg.1).mpr ⟨x, hx, h.1⟩

theorem mem_freeVariables_substitute {f : Fragment} {t : Term}
    (ht : t.IsFormula IsAtomicFormula f) (hvar : Name.isVariable name = true) {a : String}
    (ha : a ∈ (t.substitute name value).freeVariables) :
    a ∈ t.freeVariables ∧ a ≠ name ∨ a ∈ value.freeVariables := by
  have happly : ∀ {o : Operator} {args : List Term}, Name.isQuantifier o.name = false →
      Name.isVariable o.name = false →
      (∀ x ∈ args, a ∈ (x.substitute name value).freeVariables →
        a ∈ x.freeVariables ∧ a ≠ name ∨ a ∈ value.freeVariables) →
      a ∈ ((apply o args).substitute name value).freeVariables →
        a ∈ (apply o args).freeVariables ∧ a ≠ name ∨ a ∈ value.freeVariables := by
    intro o args ho hv h ha
    rw [substitute_apply hvar ho, apply, mem_freeVariables_app ho hv, exists_mem_map] at ha
    obtain ⟨x, hx, ha⟩ := ha
    refine (h x hx ha).imp_left fun h => ⟨?_, h.2⟩
    exact (mem_freeVariables_app ho hv).mpr ⟨x, hx, h.1⟩
  induction ht with
  | atomic h => exact mem_freeVariables_substitute_individual h.isIndividual hvar ha
  | literal h =>
    refine happly (by decide) (by decide) (fun x hx hx' => ?_) ha
    obtain rfl := List.mem_singleton.mp hx
    exact mem_freeVariables_substitute_individual h.isIndividual hvar hx'
  | conj _ ih => exact happly (by decide) (by decide) ih ha
  | disj _ ih => exact happly (by decide) (by decide) ih ha
  | neg _ _ ih => exact happly (by decide) (by decide) (by simpa using ih) ha
  | implies _ _ _ ihs iht =>
    exact happly (by decide) (by decide) (by simpa using ⟨ihs, iht⟩) ha
  | iff _ _ _ ihs iht =>
    exact happly (by decide) (by decide) (by simpa using ⟨ihs, iht⟩) ha
  | @quantified q names body _ _ _ ih =>
    by_cases hn : name ∈ names
    · rw [substitute_quantified_of_mem q body hn] at ha
      refine .inl ⟨ha, ?_⟩
      rintro rfl
      exact (mem_freeVariables_quantified.mp ha).2 hn
    · rw [substitute_quantified_of_not_mem hvar q body hn, mem_freeVariables_quantified] at ha
      refine (ih ha.1).imp_left fun h => ⟨mem_freeVariables_quantified.mpr ⟨h.1, ha.2⟩, h.2⟩

/-- every atom is one of the term or one of the value -/
theorem mem_atoms_substitute {t : Term} {a : String} (ha : a ∈ (t.substitute name value).atoms) :
    a ∈ t.atoms ∨ a ∈ value.atoms := by
  match t with
  | .atom b =>
    rw [substitute_atom] at ha
    split at ha
    · exact .inr ha
    · exact .inl ha
  | .list xs =>
    by_cases hb : name ∈ (list xs).boundNames
    · rw [substitute_of_bound value hb] at ha
      exact .inl ha
    · rw [substitute_list value hb, atoms_list, List.flatMap_map, List.mem_flatMap] at ha
      obtain ⟨x, hx, ha⟩ := ha
      refine (mem_atoms_substitute ha).imp_left fun h => ?_
      rw [atoms_list]
      exact List.mem_flatMap.mpr ⟨x, hx, h⟩

theorem Plain.substitute {t : Term} (h : t.Plain) (name : String) {value : Term}
    (hvalue : value.Plain) : (t.substitute name value).Plain := fun a ha =>
  (mem_atoms_substitute ha).elim (h a) (hvalue a)

/-- a plain term in the place of a name makes no operator a head -/
theorem Nonlogical.substitute {t : Term} (h : t.Nonlogical) (name : String) {value : Term}
    (hvalue : value.Plain) : (t.substitute name value).Nonlogical := by
  match t with
  | .atom a =>
    rw [substitute_atom]
    split
    · exact hvalue.nonlogical
    · exact nonlogical_atom a
  | .list xs =>
    have hbound : name ∉ (list xs).boundNames := by
      rw [boundNames_of_binder?_eq_none h.binder?_eq_none]
      exact List.not_mem_nil
    rw [substitute_list value hbound]
    refine nonlogical_list ?_ (List.forall_mem_map.mpr fun x hx => (h.of_mem hx).substitute name hvalue)
    cases xs with
    | nil => rfl
    | cons x xs =>
      have hhead : x.name?.bind Operator.ofName? = none := h _ (self_mem_subterms _)
      rw [List.map_cons, operator?, head?_list_cons, name?_substitute]
      split
      · refine Option.bind_eq_none_iff.mpr fun b hb => ?_
        rw [name?_eq_some_iff.mp hb] at hvalue
        exact Option.not_isSome_iff_eq_none.mp (Bool.eq_false_iff.mp (hvalue b (by simp)))
      · exact hhead

/-! ## what it says -/

section Truth

variable {D : Type u} {holds : Valuation D → Term → Prop} {P : Term → Prop} {f : Fragment}

theorem truth_substitute {scope : List String} {val : Valuation D → D}
    (hvar : Name.isVariable name = true)
    (hval : ∀ v w : Valuation D, (∀ a ∈ scope, v a = w a) → val v = val w)
    (hatomic : ∀ s, P s → ∀ v, (s.substitute name value).Truth holds v ↔
      s.Truth holds (Function.update v name (val v)))
    (hlocal : Local holds P) {t : Term} (ht : t.IsFormula P f) (hscope : ∀ a ∈ scope, a ∉ t.bound)
    (v : Valuation D) : (t.substitute name value).Truth holds v ↔
      t.Truth holds (Function.update v name (val v)) := by
  -- a part binds no more names than the whole
  have hpart : ∀ {o : Operator} {args : List Term}, Name.isQuantifier o.name = false →
      (∀ a ∈ scope, a ∉ (apply o args).bound) → ∀ x ∈ args, ∀ a ∈ scope, a ∉ x.bound := by
    intro o args ho h x hx a ha hb
    refine h a ha ?_
    rw [apply, bound_app ho]
    exact List.mem_flatMap.mpr ⟨x, hx, hb⟩
  induction ht generalizing v with
  | atomic h => exact hatomic _ h v
  | literal h =>
    rw [substitute_neg hvar, truth_neg, truth_neg, hatomic _ h v]
  | @conj args _ ih =>
    have hargs := hpart (by decide) hscope
    rw [Term.conj, substitute_apply hvar (by decide), ← Term.conj, ← Term.conj, truth_conj,
      truth_conj, List.forall_mem_map]
    exact forall₂_congr fun x hx => ih x hx (hargs x hx) v
  | @disj args _ ih =>
    have hargs := hpart (by decide) hscope
    rw [Term.disj, substitute_apply hvar (by decide), ← Term.disj, ← Term.disj, truth_disj,
      truth_disj, exists_mem_map]
    exact exists_congr fun x => and_congr_right fun hx => ih x hx (hargs x hx) v
  | neg _ _ ih =>
    rw [substitute_neg hvar, truth_neg, truth_neg]
    exact not_congr (ih (hpart (by decide) hscope _ (by simp)) v)
  | @implies s t _ _ _ ihs iht =>
    have hargs := hpart (by decide) hscope
    rw [Term.implies, substitute_apply hvar (by decide)]
    show (Term.implies _ _).Truth holds v ↔ (Term.implies s t).Truth holds _
    rw [truth_implies, truth_implies]
    exact imp_congr (ihs (hargs s (by simp)) v) (iht (hargs t (by simp)) v)
  | @iff s t _ _ _ ihs iht =>
    have hargs := hpart (by decide) hscope
    rw [Term.iff, substitute_apply hvar (by decide)]
    show (Term.iff _ _).Truth holds v ↔ (Term.iff s t).Truth holds _
    rw [truth_iff, truth_iff]
    exact iff_congr (ihs (hargs s (by simp)) v) (iht (hargs t (by simp)) v)
  | @quantified q names body hq hnames hbody ih =>
    by_cases hn : name ∈ names
    · rw [substitute_quantified_of_mem q body hn]
      refine truth_congr hlocal (.quantified hq hnames hbody) fun a ha => ?_
      rw [Function.update_of_ne]
      rintro rfl
      exact (mem_freeVariables_quantified.mp ha).2 hn
    · rw [substitute_quantified_of_not_mem hvar q body hn]
      rw [bound_quantified] at hscope
      have hbody : ∀ w, v.AgreeOff names w → ((body.substitute name value).Truth holds w ↔
          body.Truth holds (Function.update w name (val v))) := by
        intro w hw
        rw [← hval w v fun a ha => hw a fun hmem => hscope a ha (List.mem_append_left _ hmem)]
        exact ih (fun a ha hb => hscope a ha (List.mem_append_right _ hb)) w
      refine truth_quantified_transfer q (fun w hw => ⟨_, hw.update name _, hbody w hw⟩) fun w hw => ?_
      obtain ⟨w', hw', rfl⟩ := hw.exists_update hn
      exact ⟨w', hw', hbody w' hw'⟩

end Truth

/-! ## the terms of the logic -/

section FirstOrder

variable {D : Type u} {M : Interpretation D}

theorem denote_substitute {t : Term} (ht : t.IsIndividual) (hvar : Name.isVariable name = true)
    (v : Valuation D) : M.denote v (t.substitute name value) =
      M.denote (Function.update v name (M.denote v value)) t := by
  induction ht with
  | @var a ha =>
    rw [Interpretation.denote_variable _ _ ha, substitute_atom]
    split
    · next he => rw [he, Function.update_self]
    · next he => rw [Function.update_of_ne he, Interpretation.denote_variable _ _ ha]
  | @const a ha =>
    rw [substitute_atom, if_neg (Name.ne_of_isVariable hvar ha.1).symm,
      Interpretation.denote_constant _ _ ha.1, Interpretation.denote_constant _ _ ha.1]
  | @app g args hg _ ih =>
    rw [substitute_app hg.not_quantifier (Name.ne_of_isVariable hvar hg.1).symm,
      Interpretation.denote_app, Interpretation.denote_app, List.map_map]
    exact congrArg _ (List.map_congr_left ih)

theorem truth_substitute_of_isAtomicFormula {t : Term} (ht : t.IsAtomicFormula)
    (hvar : Name.isVariable name = true) (v : Valuation D) :
    (t.substitute name value).Truth M.holds v ↔
      t.Truth M.holds (Function.update v name (M.denote v value)) := by
  refine truth_iff_of_isAtomicFormula ht (fun a he => ?_) (fun g args he => ?_) rfl
  · subst he
    cases ht with
    | const ha => rw [substitute_atom, if_neg (Name.ne_of_isVariable hvar ha.1).symm]
  · subst he
    cases ht with
    | app hg hargs =>
      refine ⟨_, substitute_app hg.not_quantifier (Name.ne_of_isVariable hvar hg.1).symm args, ?_⟩
      rw [List.map_map]
      exact List.map_congr_left fun x hx => denote_substitute (hargs x hx) hvar v

/-- a formula with an individual in the place of a variable, whose own variables the formula does not
bind -/
theorem truth_substitute_individual {f : Fragment} {t : Term} (ht : t.IsFormula IsAtomicFormula f)
    (hvar : Name.isVariable name = true) (hvalue : value.IsIndividual)
    (hfree : ∀ a ∈ value.freeVariables, a ∉ t.bound) (v : Valuation D) :
    (t.substitute name value).Truth M.holds v ↔
      t.Truth M.holds (Function.update v name (M.denote v value)) :=
  truth_substitute hvar (fun _ _ h => denote_congr hvalue h)
    (fun _ hs v => truth_substitute_of_isAtomicFormula hs hvar v) (local_isAtomicFormula M) ht hfree v

end FirstOrder

end Term

end OntologyPrep
