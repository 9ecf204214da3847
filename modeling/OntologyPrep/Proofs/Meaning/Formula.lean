import OntologyPrep.Proofs.Meaning.Truth
import OntologyPrep.Proofs.Term.Plain

/-!
# Formulas

`Term.IsFormula` says that a term is built with the connectives from atomic formulas; which terms are
atomic formulas is a parameter.  A `Fragment` limits the connectives:

* `Fragment.full`        all of them;
* `Fragment.arrowFree`   no implications and equivalences;
* `Fragment.normal`      negations of atomic formulas only, too;
* `Fragment.universal`   universal quantifiers only, too;
* `Fragment.matrix`      no quantifiers at all.

Without arrows and with negations of atomic formulas only, a formula is a positive combination of literals
(`Term.IsPositive`); what a step does to literals of some kind is told there once for all kinds.
-/

namespace OntologyPrep

/-- which connectives a formula may have -/
structure Fragment where
  /-- implications and equivalences -/
  arrows : Prop
  /-- negations of formulas that are not atomic -/
  nested : Prop
  /-- quantified formulas -/
  quantifier : Quantifier → Prop

namespace Fragment

/-- all connectives -/
def full : Fragment := ⟨True, True, fun _ => True⟩

/-- all connectives but the arrows -/
def arrowFree : Fragment := ⟨False, True, fun _ => True⟩

/-- negation normal form -/
def normal : Fragment := ⟨False, False, fun _ => True⟩

/-- negation normal form with universal quantifiers only -/
def universal : Fragment := ⟨False, False, fun q => q = .all⟩

/-- negation normal form without quantifiers -/
def matrix : Fragment := ⟨False, False, fun _ => False⟩

/-- what one fragment allows the other one allows too -/
def Within (f g : Fragment) : Prop :=
  (f.arrows → g.arrows) ∧ (f.nested → g.nested) ∧ ∀ q, f.quantifier q → g.quantifier q

theorem normal_within_arrowFree : normal.Within arrowFree :=
  ⟨fun h => h, fun h => h.elim, fun _ h => h⟩

theorem matrix_within_normal : matrix.Within normal :=
  ⟨fun h => h, fun h => h, fun _ h => h.elim⟩

end Fragment

namespace Term

/-- a formula of the fragment over atomic formulas of a kind -/
inductive IsFormula (P : Term → Prop) (f : Fragment) : Term → Prop where
  | atomic {t : Term} : P t → IsFormula P f t
  | literal {t : Term} : P t → IsFormula P f t.neg
  | conj {args : List Term} : (∀ x ∈ args, IsFormula P f x) → IsFormula P f (.conj args)
  | disj {args : List Term} : (∀ x ∈ args, IsFormula P f x) → IsFormula P f (.disj args)
  | neg {t : Term} : f.nested → IsFormula P f t → IsFormula P f t.neg
  | implies {s t : Term} : f.arrows → IsFormula P f s → IsFormula P f t →
    IsFormula P f (.implies s t)
  | iff {s t : Term} : f.arrows → IsFormula P f s → IsFormula P f t → IsFormula P f (.iff s t)
  | quantified {q : Quantifier} {names : List String} {body : Term} : f.quantifier q →
    (∀ n ∈ names, Name.isVariable n = true) → IsFormula P f body →
    IsFormula P f (.quantified q.name names body)

/-- a conjunction or a disjunction of formulas -/
theorem IsFormula.of_parts {P : Term → Prop} {f : Fragment} {o : Operator} (ho : o = .conj ∨ o = .disj)
    {args : List Term} (h : ∀ x ∈ args, x.IsFormula P f) : (apply o args).IsFormula P f := by
  rcases ho with rfl | rfl
  · exact .conj h
  · exact .disj h

theorem IsFormula.mono {P : Term → Prop} {f g : Fragment} (hfg : f.Within g) {t : Term}
    (h : t.IsFormula P f) : t.IsFormula P g := by
  induction h with
  | atomic hP => exact .atomic hP
  | literal hP => exact .literal hP
  | conj _ ih => exact .conj ih
  | disj _ ih => exact .disj ih
  | neg hn _ ih => exact .neg (hfg.2.1 hn) ih
  | implies ha _ _ ihs iht => exact .implies (hfg.1 ha) ihs iht
  | iff ha _ _ ihs iht => exact .iff (hfg.1 ha) ihs iht
  | quantified hq hnames _ ih => exact .quantified (hfg.2.2 _ hq) hnames ih

theorem IsFormula.of_atomic {P Q : Term → Prop} {f : Fragment} (hPQ : ∀ s, P s → Q s) {t : Term}
    (h : t.IsFormula P f) : t.IsFormula Q f := by
  induction h with
  | atomic hP => exact .atomic (hPQ _ hP)
  | literal hP => exact .literal (hPQ _ hP)
  | conj _ ih => exact .conj ih
  | disj _ ih => exact .disj ih
  | neg hn _ ih => exact .neg hn ih
  | implies ha _ _ ihs iht => exact .implies ha ihs iht
  | iff ha _ _ ihs iht => exact .iff ha ihs iht
  | quantified hq hnames _ ih => exact .quantified hq hnames ih

/-! ## positive combinations of literals -/

/-- an atomic formula or the negation of one -/
inductive IsLiteral (P : Term → Prop) : Term → Prop where
  | atomic {t : Term} : P t → IsLiteral P t
  | negated {t : Term} : P t → IsLiteral P t.neg

theorem IsLiteral.of_atomic {P Q : Term → Prop} (hPQ : ∀ s, P s → Q s) {t : Term}
    (h : t.IsLiteral P) : t.IsLiteral Q := by
  cases h with
  | atomic h => exact .atomic (hPQ _ h)
  | negated h => exact .negated (hPQ _ h)

/-- literals of a kind put together by conjunctions, disjunctions and some quantifiers -/
inductive IsPositive (L : Term → Prop) (allowed : Quantifier → Prop) : Term → Prop where
  | literal {t : Term} : L t → IsPositive L allowed t
  | conj {args : List Term} : (∀ x ∈ args, IsPositive L allowed x) → IsPositive L allowed (.conj args)
  | disj {args : List Term} : (∀ x ∈ args, IsPositive L allowed x) → IsPositive L allowed (.disj args)
  | quantified {q : Quantifier} {names : List String} {body : Term} : allowed q →
    (∀ n ∈ names, Name.isVariable n = true) → IsPositive L allowed body →
    IsPositive L allowed (.quantified q.name names body)

theorem IsPositive.of_parts {L : Term → Prop} {allowed : Quantifier → Prop} {o : Operator}
    (ho : o = .conj ∨ o = .disj) {args : List Term} (h : ∀ x ∈ args, x.IsPositive L allowed) :
    (apply o args).IsPositive L allowed := by
  rcases ho with rfl | rfl
  · exact .conj h
  · exact .disj h

/-- in a fragment without arrows and nested negations the formulas are the positive combinations of literals -/
theorem isFormula_iff_isPositive {P : Term → Prop} {f : Fragment} (harrows : ¬ f.arrows)
    (hnested : ¬ f.nested) {t : Term} :
    t.IsFormula P f ↔ t.IsPositive (IsLiteral P) f.quantifier := by
  constructor
  · intro h
    induction h with
    | atomic h => exact .literal (.atomic h)
    | literal h => exact .literal (.negated h)
    | conj _ ih => exact .conj ih
    | disj _ ih => exact .disj ih
    | neg h => exact absurd h hnested
    | implies h => exact absurd h harrows
    | iff h => exact absurd h harrows
    | quantified hq hnames _ ih => exact .quantified hq hnames ih
  · intro h
    induction h with
    | literal h =>
      cases h with
      | atomic h => exact .atomic h
      | negated h => exact .literal h
    | conj _ ih => exact .conj ih
    | disj _ ih => exact .disj ih
    | quantified hq hnames _ ih => exact .quantified hq hnames ih

/-- induction that treats all connectives as one case -/
theorem IsFormula.connectiveInduction {P : Term → Prop} {f : Fragment} {motive : Term → Prop}
    (atomic : ∀ t, P t → motive t)
    (connective : ∀ (o : Operator) (args : List Term), Name.isQuantifier o.name = false →
      (∀ x ∈ args, motive x) → motive (apply o args))
    (binder : ∀ (q : Quantifier) (names : List String) (body : Term), body.IsFormula P f →
      motive body → motive (Term.quantified q.name names body)) {t : Term} (ht : t.IsFormula P f) :
    motive t := by
  have hpair : ∀ (o : Operator) {s t : Term}, Name.isQuantifier o.name = false → motive s →
      motive t → motive (apply o [s, t]) := fun o s t ho hs ht =>
    connective o [s, t] ho (List.forall_mem_cons.mpr ⟨hs, List.forall_mem_singleton.mpr ht⟩)
  induction ht with
  | atomic hP => exact atomic _ hP
  | literal hP =>
    exact connective .neg _ (by decide) (List.forall_mem_singleton.mpr (atomic _ hP))
  | conj _ ih => exact connective .conj _ (by decide) ih
  | disj _ ih => exact connective .disj _ (by decide) ih
  | neg _ _ ih => exact connective .neg _ (by decide) (List.forall_mem_singleton.mpr ih)
  | implies _ _ _ ihs iht => exact hpair .implies (by decide) ihs iht
  | iff _ _ _ ihs iht => exact hpair .iff (by decide) ihs iht
  | quantified _ _ hbody ih => exact binder _ _ _ hbody ih

/-! ## formulas over nonlogical terms -/

theorem binder?_app_ne {head : String} {args : List Term} (hq : Name.isQuantifier head = false)
    (b : Binder) : (app head args).binder? ≠ some b := by
  rw [binder?_app_eq_none args hq]
  exact Option.some_ne_none b ∘ Eq.symm

/-- what a formula that starts with a quantifier is -/
theorem IsFormula.of_binder? {P : Term → Prop} {f : Fragment} (hP : ∀ s, P s → s.Nonlogical) {t : Term}
    (ht : t.IsFormula P f) {b : Binder} (hb : t.binder? = some b) :
    t = .quantified b.quantifier.name b.names b.body ∧
      (∀ n ∈ b.names, Name.isVariable n = true) ∧ b.body.IsFormula P f := by
  cases ht with
  | atomic h =>
    rw [(hP _ h).binder?_eq_none] at hb
    cases hb
  | @quantified q names body _ hnames hbody =>
    rw [binder?_quantified] at hb
    obtain rfl := Option.some.inj hb
    rw [names_quantified]
    exact ⟨rfl, hnames, hbody⟩
  | _ => exact absurd hb (binder?_app_ne (by decide) b)

theorem IsFormula.of_quantified {P : Term → Prop} {f : Fragment} (hP : ∀ s, P s → s.Nonlogical)
    {q : Quantifier} {names : List String} {body : Term}
    (h : (Term.quantified q.name names body).IsFormula P f) :
    (∀ n ∈ names, Name.isVariable n = true) ∧ body.IsFormula P f := by
  have hparts := (h.of_binder? hP (binder?_quantified q names body)).2
  rw [names_quantified] at hparts
  exact hparts

/-- the parts of a conjunction or a disjunction are formulas if it is one -/
theorem IsFormula.of_mem_args {P : Term → Prop} {f : Fragment} (hP : ∀ s, P s → s.Nonlogical)
    {o : Operator} {args : List Term} (ho : o = .conj ∨ o = .disj)
    (h : (apply o args).IsFormula P f) {x : Term} (hx : x ∈ args) : x.IsFormula P f := by
  generalize he : apply o args = t at h
  cases h with
  | atomic h => exact absurd (hP _ (he ▸ h)) (not_nonlogical_apply o args)
  | conj hargs | disj hargs =>
    rw [(List.cons.inj (Term.list.inj he)).2] at hx
    exact hargs x hx
  | literal _ | neg _ _ | implies _ _ _ | iff _ _ _ =>
    have hname := Term.atom.inj (List.cons.inj (Term.list.inj he)).1
    rcases ho with rfl | rfl <;> exact absurd hname (by decide)
  | @quantified q names body _ _ _ =>
    have hname := Term.atom.inj (List.cons.inj (Term.list.inj he)).1
    rcases ho with rfl | rfl <;> cases q <;> exact absurd hname (by decide)

section

variable {L : Term → Prop} {allowed : Quantifier → Prop} {t : Term}

/-- the negation is the only operator that a literal may start with -/
theorem IsLiteral.operator?_ne {P : Term → Prop} (hP : ∀ s, P s → s.Nonlogical) (h : t.IsLiteral P)
    (o : Operator) (ho : o ≠ .neg) : t.operator? ≠ some o := by
  cases h with
  | atomic h =>
    intro he
    rw [eq_apply_of_operator? he] at h
    exact not_nonlogical_apply o _ (hP _ h)
  | negated _ => exact fun he => ho (Option.some.inj he).symm

theorem IsLiteral.binder?_eq_none (h : t.IsLiteral Nonlogical) : t.binder? = none := by
  cases h with
  | atomic h => exact h.binder?_eq_none
  | negated _ => exact binder?_app_eq_none _ (by decide)

variable (hL : ∀ s, L s → s.IsLiteral Nonlogical)

include hL

/-- what a positive combination that starts with a quantifier is -/
theorem IsPositive.of_binder? (ht : t.IsPositive L allowed) {b : Binder} (hb : t.binder? = some b) :
    t = .quantified b.quantifier.name b.names b.body ∧
      (∀ n ∈ b.names, Name.isVariable n = true) ∧ b.body.IsPositive L allowed := by
  cases ht with
  | literal h =>
    rw [(hL _ h).binder?_eq_none] at hb
    cases hb
  | @quantified q names body _ hnames hbody =>
    rw [binder?_quantified] at hb
    obtain rfl := Option.some.inj hb
    rw [names_quantified]
    exact ⟨rfl, hnames, hbody⟩
  | _ => exact absurd hb (binder?_app_ne (by decide) b)

/-- the parts of a conjunction or a disjunction are positive combinations if it is one -/
theorem IsPositive.of_mem_args {o : Operator} {args : List Term} (ho : o = .conj ∨ o = .disj)
    (h : (apply o args).IsPositive L allowed) {x : Term} (hx : x ∈ args) : x.IsPositive L allowed := by
  generalize he : apply o args = t at h
  have hop : t.operator? = some o := he ▸ Operator.ofName?_name o
  cases h with
  | literal h =>
    have hne : o ≠ .neg := by rcases ho with rfl | rfl <;> decide
    exact absurd hop ((hL _ h).operator?_ne (fun _ h => h) o hne)
  | conj hargs | disj hargs =>
    rw [(List.cons.inj (Term.list.inj he)).2] at hx
    exact hargs x hx
  | @quantified q names body _ _ _ =>
    have hquant : some (Operator.quant q) = some o := (Operator.ofName?_name (.quant q)).symm.trans hop
    rcases ho with rfl | rfl <;> cases hquant

end

/-! ## free variables of a formula -/

theorem mem_freeVariables_app {head : String} {args : List Term} {name : String}
    (hq : Name.isQuantifier head = false) (hv : Name.isVariable head = false) :
    name ∈ (app head args).freeVariables ↔ ∃ x ∈ args, name ∈ x.freeVariables := by
  have hb : (list (.atom head :: args)).binder? = none := binder?_app_eq_none args hq
  rw [app, mem_freeVariables_list hb]
  constructor
  · rintro ⟨x, hx, hn⟩
    rcases List.mem_cons.mp hx with rfl | hx
    · rw [(mem_freeVariables_atom.mp hn).1] at hv
      cases hv
    · exact ⟨x, hx, hn⟩
  · rintro ⟨x, hx, hn⟩
    exact ⟨x, List.mem_cons_of_mem _ hx, hn⟩

theorem mem_freeVariables_conj {args : List Term} {name : String} :
    name ∈ (conj args).freeVariables ↔ ∃ x ∈ args, name ∈ x.freeVariables :=
  mem_freeVariables_app (by decide) (by decide)

theorem mem_freeVariables_disj {args : List Term} {name : String} :
    name ∈ (disj args).freeVariables ↔ ∃ x ∈ args, name ∈ x.freeVariables :=
  mem_freeVariables_app (by decide) (by decide)

theorem mem_freeVariables_neg {t : Term} {name : String} :
    name ∈ t.neg.freeVariables ↔ name ∈ t.freeVariables := by
  rw [neg, apply, mem_freeVariables_app (by decide) (by decide)]
  simp

theorem mem_freeVariables_implies {s t : Term} {name : String} :
    name ∈ (implies s t).freeVariables ↔ name ∈ s.freeVariables ∨ name ∈ t.freeVariables := by
  rw [implies, apply, mem_freeVariables_app (by decide) (by decide)]
  simp

theorem mem_freeVariables_iff {s t : Term} {name : String} :
    name ∈ (iff s t).freeVariables ↔ name ∈ s.freeVariables ∨ name ∈ t.freeVariables := by
  rw [iff, apply, mem_freeVariables_app (by decide) (by decide)]
  simp

theorem mem_freeVariables_quantified {q : Quantifier} {names : List String} {body : Term}
    {name : String} : name ∈ (quantified q.name names body).freeVariables ↔
      name ∈ body.freeVariables ∧ name ∉ names := by
  rw [quantified_eq_toTerm, mem_freeVariables_binder, names_quantified]

/-! ## truth of a formula -/

variable {D : Type u} {holds : Valuation D → Term → Prop} {P : Term → Prop} {f : Fragment}

/-- whether atomic formulas of a kind hold is decided by the values of their variables, except for
truth and falsity -/
def Local (holds : Valuation D → Term → Prop) (P : Term → Prop) : Prop :=
  ∀ t, P t → ∀ v w : Valuation D, (∀ a ∈ t.freeVariables, v a = w a) →
    (t.Truth holds v ↔ t.Truth holds w)

/-- the truth of a formula is decided by the values of its free variables -/
theorem truth_congr (hlocal : Local holds P) {t : Term} (ht : t.IsFormula P f) {v w : Valuation D}
    (h : ∀ a ∈ t.freeVariables, v a = w a) : t.Truth holds v ↔ t.Truth holds w := by
  induction ht generalizing v w with
  | atomic hP => exact hlocal _ hP v w h
  | literal hP =>
    rw [truth_neg, truth_neg, hlocal _ hP v w fun a ha => h a (mem_freeVariables_neg.mpr ha)]
  | @conj args _ ih =>
    rw [truth_conj, truth_conj]
    exact forall₂_congr fun x hx =>
      ih x hx fun a ha => h a (mem_freeVariables_conj.mpr ⟨x, hx, ha⟩)
  | @disj args _ ih =>
    rw [truth_disj, truth_disj]
    exact exists_congr fun x => and_congr_right fun hx =>
      ih x hx fun a ha => h a (mem_freeVariables_disj.mpr ⟨x, hx, ha⟩)
  | neg _ _ ih =>
    rw [truth_neg, truth_neg, ih fun a ha => h a (mem_freeVariables_neg.mpr ha)]
  | implies _ _ _ ihs iht =>
    rw [truth_implies, truth_implies,
      ihs fun a ha => h a (mem_freeVariables_implies.mpr (.inl ha)),
      iht fun a ha => h a (mem_freeVariables_implies.mpr (.inr ha))]
  | iff _ _ _ ihs iht =>
    rw [truth_iff, truth_iff, ihs fun a ha => h a (mem_freeVariables_iff.mpr (.inl ha)),
      iht fun a ha => h a (mem_freeVariables_iff.mpr (.inr ha))]
  | @quantified q names body _ _ _ ih =>
    -- values that agree with one valuation off the bound names are carried over to the other one
    have hcarry : ∀ {v w : Valuation D},
        (∀ a ∈ (Term.quantified q.name names body).freeVariables, v a = w a) →
        ∀ x, v.AgreeOff names x →
          (body.Truth holds x ↔ body.Truth holds (Valuation.override names w x)) := by
      intro v w h x hx
      refine ih fun a ha => ?_
      by_cases hn : a ∈ names
      · rw [Valuation.override_of_mem hn]
      · rw [Valuation.override_of_not_mem hn, hx a hn,
          h a (mem_freeVariables_quantified.mpr ⟨ha, hn⟩)]
    refine truth_quantified_transfer q (fun x hx => ?_) fun x hx => ?_
    · exact ⟨_, Valuation.agreeOff_override names w x, hcarry h x hx⟩
    · exact ⟨_, Valuation.agreeOff_override names v x,
        (hcarry (fun a ha => (h a ha).symm) x hx).symm⟩

end Term

end OntologyPrep
