import OntologyPrep.Normal.Connective
import OntologyPrep.Normal.Disjunction
import OntologyPrep.Normal.Negation
import OntologyPrep.Normal.Skolem
import OntologyPrep.Proofs.Meaning.Formula

/-!
# What shape the steps give a formula

Each step on the way to clauses takes formulas of one fragment to formulas of the next one, over any
atomic formulas in which no list is headed by a logical operator:

* `Term.isFormula_arrowsOut`         no arrows;
* `Term.isFormula_negationsIn`       negations of atomic formulas only;
* `Term.isFormula_universalsOut`     no quantifiers, if there were no existential ones;
* `Term.isFormula_disjunctionsIn`    no quantifiers still.

The last two are read off what becomes of positive combinations of literals, whatever the literals
(`Term.IsPositive.universalsOut`, `Term.IsPositive.disjunctionsIn`).

None of the steps changes a nonlogical term (`Term.Nonlogical.arrowsOut`, `Term.Nonlogical.settle`, ...).
-/

namespace OntologyPrep.Term

variable {P : Term → Prop} {f : Fragment}

theorem map_eq_self {g : Term → Term} {args : List Term} (h : ∀ x ∈ args, g x = x) :
    args.map g = args := by
  rw [List.map_congr_left h, List.map_id']

/-- what maps a list to itself leaves its elements as they are -/
theorem forall_of_map_eq_self {g : Term → Term} {args : List Term} (h : args.map g = args) :
    ∀ x ∈ args, g x = x := List.map_inj_left.mp (h.trans (List.map_id args).symm)

/-! ## arrows -/

theorem equivalencesOut_app {head : String} (h : head ≠ "<=>") (args : List Term) :
    (app head args).equivalencesOut = app head (args.map equivalencesOut) := by
  rw [app, equivalencesOut_list, List.map_cons, equivalencesOut, equivalenceOut]
  · rfl
  · intro a b he
    exact h (Term.atom.inj (List.cons.inj (Term.list.inj he)).1)

theorem implicationsOut_app {head : String} (h : head ≠ "=>") (args : List Term) :
    (app head args).implicationsOut = app head (args.map implicationsOut) := by
  rw [app, implicationsOut_list, List.map_cons, implicationsOut, implicationOut]
  · rfl
  · intro a b he
    exact h (Term.atom.inj (List.cons.inj (Term.list.inj he)).1)

/-- the formula without arrows -/
def arrowsOut (t : Term) : Term := t.equivalencesOut.implicationsOut

theorem arrowsOut_app {head : String} (he : head ≠ "<=>") (hi : head ≠ "=>") (args : List Term) :
    (app head args).arrowsOut = app head (args.map arrowsOut) := by
  rw [arrowsOut, equivalencesOut_app he, implicationsOut_app hi, List.map_map]
  rfl

theorem Nonlogical.equivalencesOut {t : Term} (h : t.Nonlogical) : t.equivalencesOut = t := by
  match t with
  | .atom a => rw [Term.equivalencesOut]
  | .list xs =>
    rw [equivalencesOut_list, map_eq_self fun x hx => (h.of_mem hx).equivalencesOut, equivalenceOut]
    rintro a b he
    rw [he] at h
    exact h.head_ne .iff rfl

theorem Nonlogical.implicationsOut {t : Term} (h : t.Nonlogical) : t.implicationsOut = t := by
  match t with
  | .atom a => rw [Term.implicationsOut]
  | .list xs =>
    rw [implicationsOut_list, map_eq_self fun x hx => (h.of_mem hx).implicationsOut, implicationOut]
    rintro a b he
    rw [he] at h
    exact h.head_ne .implies rfl

theorem Nonlogical.arrowsOut {t : Term} (h : t.Nonlogical) : t.arrowsOut = t := by
  rw [Term.arrowsOut, h.equivalencesOut, h.implicationsOut]

theorem implicationsOut_implies (s t : Term) :
    (implies s t).implicationsOut = disj [neg s.implicationsOut, t.implicationsOut] := by
  rw [implies, apply, app, implicationsOut_list, List.map_cons, implicationsOut]
  rfl

theorem arrowsOut_implies (s t : Term) :
    (implies s t).arrowsOut = disj [neg s.arrowsOut, t.arrowsOut] := by
  have hout : (implies s t).equivalencesOut = implies s.equivalencesOut t.equivalencesOut :=
    equivalencesOut_app (by decide) [s, t]
  rw [arrowsOut, hout, implicationsOut_implies]
  rfl

theorem arrowsOut_iff (s t : Term) : (iff s t).arrowsOut =
    conj [disj [neg s.arrowsOut, t.arrowsOut], disj [neg t.arrowsOut, s.arrowsOut]] := by
  have hout : (iff s t).equivalencesOut = conj [implies s.equivalencesOut t.equivalencesOut,
      implies t.equivalencesOut s.equivalencesOut] := by
    rw [iff, apply, app, equivalencesOut_list, List.map_cons, equivalencesOut]
    rfl
  rw [arrowsOut, hout, conj, apply, implicationsOut_app (by decide), List.map_cons, List.map_cons,
    List.map_nil, implicationsOut_implies, implicationsOut_implies]
  rfl

theorem arrowsOut_neg (t : Term) : t.neg.arrowsOut = t.arrowsOut.neg :=
  arrowsOut_app (by decide) (by decide) [t]

theorem arrowsOut_conj (args : List Term) : (conj args).arrowsOut = conj (args.map arrowsOut) :=
  arrowsOut_app (by decide) (by decide) args

theorem arrowsOut_disj (args : List Term) : (disj args).arrowsOut = disj (args.map arrowsOut) :=
  arrowsOut_app (by decide) (by decide) args

theorem arrowsOut_quantified (q : Quantifier) {names : List String}
    (hnames : ∀ n ∈ names, Name.isVariable n = true) (body : Term) :
    (quantified q.name names body).arrowsOut = quantified q.name names body.arrowsOut := by
  have hq : q.name ≠ "<=>" ∧ q.name ≠ "=>" := by cases q <;> decide
  rw [quantified, arrowsOut_app hq.1 hq.2, List.map_cons, List.map_cons, List.map_nil,
    (plain_names hnames).nonlogical.arrowsOut]
  rfl

theorem isFormula_arrowsOut (hP : ∀ s, P s → s.Nonlogical) {t : Term} (h : t.IsFormula P f) :
    t.arrowsOut.IsFormula P .arrowFree := by
  induction h with
  | atomic h =>
    rw [(hP _ h).arrowsOut]
    exact .atomic h
  | literal h =>
    rw [arrowsOut_neg, (hP _ h).arrowsOut]
    exact .literal h
  | conj _ ih =>
    rw [arrowsOut_conj]
    exact .conj (List.forall_mem_map.mpr ih)
  | disj _ ih =>
    rw [arrowsOut_disj]
    exact .disj (List.forall_mem_map.mpr ih)
  | neg _ _ ih =>
    rw [arrowsOut_neg]
    exact .neg trivial ih
  | implies _ _ _ ihs iht =>
    rw [arrowsOut_implies]
    exact .disj (by simpa using ⟨.neg trivial ihs, iht⟩)
  | @iff s t _ _ _ ihs iht =>
    have hst : (disj [neg s.arrowsOut, t.arrowsOut]).IsFormula P .arrowFree :=
      .disj (by simpa using ⟨.neg trivial ihs, iht⟩)
    have hts : (disj [neg t.arrowsOut, s.arrowsOut]).IsFormula P .arrowFree :=
      .disj (by simpa using ⟨.neg trivial iht, ihs⟩)
    rw [arrowsOut_iff]
    exact .conj (by simpa using ⟨hst, hts⟩)
  | quantified _ hnames _ ih =>
    rw [arrowsOut_quantified _ hnames]
    exact .quantified trivial hnames ih

/-! ## negations -/

theorem settle_app {head : String} (h : head ≠ "not") (args : List Term) :
    (app head args).settle true = app head (args.map (settle true)) := by
  rw [app, settle]
  · simp [settle, app]
  · intro t he
    exact h (Term.atom.inj (List.cons.inj he).1)

theorem settle_neg (positive : Bool) (t : Term) : t.neg.settle positive = t.settle (!positive) := by
  show (list [.atom "not", t]).settle positive = _
  cases positive <;> rw [settle]

theorem settle_conj (args : List Term) :
    (conj args).settle true = conj (args.map (settle true)) ∧
      (conj args).settle false = disj (args.map (settle false)) := by
  refine ⟨settle_app (by decide) args, ?_⟩
  show (list (.atom "and" :: args)).settle false = _
  rw [settle]

theorem settle_disj (args : List Term) :
    (disj args).settle true = disj (args.map (settle true)) ∧
      (disj args).settle false = conj (args.map (settle false)) := by
  refine ⟨settle_app (by decide) args, ?_⟩
  show (list (.atom "or" :: args)).settle false = _
  rw [settle]

theorem Nonlogical.settle {t : Term} (h : t.Nonlogical) : t.settle true = t := by
  match t with
  | .atom a => simp [Term.settle]
  | .list xs =>
    rw [Term.settle, map_eq_self fun x hx => (h.of_mem hx).settle]
    rintro t rfl
    exact h.head_ne .neg rfl

/-- a nonlogical list is no formula built with a connective, so it is negated as it is -/
theorem Nonlogical.settle_false {xs : List Term} (h : (list xs).Nonlogical) :
    (list xs).settle false = (list xs).neg := by
  rw [Term.settle]
  · rintro t rfl
    exact h.head_ne .neg rfl
  · rintro args rfl
    exact h.head_ne .conj rfl
  · rintro args rfl
    exact h.head_ne .disj rfl
  · rintro entries body rfl
    exact h.head_ne (.quant .all) rfl
  · rintro entries body rfl
    exact h.head_ne (.quant .any) rfl

theorem settle_quantified (q : Quantifier) {names : List String}
    (hnames : ∀ n ∈ names, Name.isVariable n = true) (body : Term) :
    (quantified q.name names body).settle true = quantified q.name names (body.settle true) ∧
      (quantified q.name names body).settle false =
        quantified q.dual.name names (body.settle false) := by
  constructor
  · have hq : q.name ≠ "not" := by cases q <;> decide
    rw [quantified, settle_app hq, List.map_cons, List.map_cons, List.map_nil,
      (plain_names hnames).nonlogical.settle]
    rfl
  · cases q with
    | all =>
      show (list [.atom "forall", .list (names.map atom), body]).settle false = _
      rw [settle]
      rfl
    | any =>
      show (list [.atom "exists", .list (names.map atom), body]).settle false = _
      rw [settle]
      rfl

section

variable (hP : ∀ s, P s → s.Nonlogical) (hverum : P verum) (hfalsum : P falsum)

include hP hverum hfalsum

/-- the negation of an atomic formula settles to a literal: truth and falsity to each other -/
theorem isFormula_settle_false {t : Term} (h : P t) : (t.settle false).IsFormula P .normal := by
  match t with
  | .atom a =>
    rw [settle, if_neg (by decide)]
    split
    · exact .atomic hfalsum
    · split
      · exact .atomic hverum
      · exact .literal h
  | .list xs =>
    rw [(hP _ h).settle_false]
    exact .literal h

/-- a formula and its negation settle to formulas in negation normal form -/
theorem isFormula_settle {t : Term} (h : t.IsFormula P .arrowFree) (positive : Bool) :
    (t.settle positive).IsFormula P .normal := by
  induction h generalizing positive with
  | atomic h =>
    cases positive with
    | true =>
      rw [(hP _ h).settle]
      exact .atomic h
    | false => exact isFormula_settle_false hP hverum hfalsum h
  | literal h =>
    rw [settle_neg]
    cases positive with
    | true => exact isFormula_settle_false hP hverum hfalsum h
    | false =>
      rw [Bool.not_false, (hP _ h).settle]
      exact .atomic h
  | @conj args _ ih =>
    cases positive with
    | true =>
      rw [(settle_conj args).1]
      exact .conj (List.forall_mem_map.mpr fun x hx => ih x hx true)
    | false =>
      rw [(settle_conj args).2]
      exact .disj (List.forall_mem_map.mpr fun x hx => ih x hx false)
  | @disj args _ ih =>
    cases positive with
    | true =>
      rw [(settle_disj args).1]
      exact .disj (List.forall_mem_map.mpr fun x hx => ih x hx true)
    | false =>
      rw [(settle_disj args).2]
      exact .conj (List.forall_mem_map.mpr fun x hx => ih x hx false)
  | neg _ _ ih =>
    rw [settle_neg]
    exact ih (!positive)
  | implies harrows => exact harrows.elim
  | iff harrows => exact harrows.elim
  | @quantified q names body _ hnames _ ih =>
    obtain ⟨htrue, hfalse⟩ := settle_quantified q hnames body
    cases positive with
    | true =>
      rw [htrue]
      exact .quantified trivial hnames (ih true)
    | false =>
      rw [hfalse]
      exact .quantified trivial hnames (ih false)

theorem isFormula_negationsIn {t : Term} (h : t.IsFormula P .arrowFree) :
    t.negationsIn.IsFormula P .normal := by
  have hrounds : t.negationsIn.IsFormula P .arrowFree := by
    induction t using negationsIn.induct with
    | case1 t hfixed => rwa [negationsIn_of_eq hfixed]
    | case2 t hchanged ih =>
      rw [negationsIn, if_neg hchanged]
      exact ih ((isFormula_settle hP hverum hfalsum h true).mono Fragment.normal_within_arrowFree)
  rw [← pushNegations_negationsIn]
  exact isFormula_settle hP hverum hfalsum hrounds true

end

/-! ## universal quantifiers -/

theorem universalsOut_of_all {xs : List Term} {b : Binder} (hb : (list xs).binder? = some b)
    (hq : b.quantifier = .all) : (list xs).universalsOut = b.body.universalsOut := by
  rw [universalsOut]
  split
  · next b' hb' =>
    obtain rfl := Option.some.inj (hb'.symm.trans hb)
    simp only [hq]
  · next hn =>
    rw [hb] at hn
    cases hn

theorem universalsOut_of_any {xs : List Term} {b : Binder} (hb : (list xs).binder? = some b)
    (hq : b.quantifier = .any) : (list xs).universalsOut = .list (xs.map universalsOut) := by
  rw [universalsOut]
  split
  · next b' hb' =>
    obtain rfl := Option.some.inj (hb'.symm.trans hb)
    simp only [hq]
  · rfl

theorem universalsOut_quantified_all (names : List String) (body : Term) :
    (quantified Quantifier.all.name names body).universalsOut = body.universalsOut :=
  universalsOut_of_all (binder?_quantified .all names body) rfl

theorem universalsOut_list {xs : List Term} (hb : (list xs).binder? = none) :
    (list xs).universalsOut = .list (xs.map universalsOut) := by
  rw [universalsOut]
  split
  · next b hb' =>
    rw [hb] at hb'
    cases hb'
  · rfl

theorem universalsOut_app {head : String} (hq : Name.isQuantifier head = false) (args : List Term) :
    (app head args).universalsOut = app head (args.map universalsOut) := by
  rw [app, universalsOut_list (binder?_app_eq_none args hq), List.map_cons, universalsOut]
  rfl

theorem Nonlogical.universalsOut {t : Term} (h : t.Nonlogical) : t.universalsOut = t := by
  match t with
  | .atom a => rw [Term.universalsOut]
  | .list xs =>
    rw [universalsOut_list h.binder?_eq_none, map_eq_self fun x hx => (h.of_mem hx).universalsOut]

theorem Nonlogical.universalsOut_neg {t : Term} (h : t.Nonlogical) : t.neg.universalsOut = t.neg := by
  rw [neg, apply, universalsOut_app (by decide), List.map_cons, List.map_nil, h.universalsOut]

theorem IsLiteral.universalsOut {t : Term} (h : t.IsLiteral Nonlogical) : t.universalsOut = t := by
  cases h with
  | atomic h => exact h.universalsOut
  | negated h => exact h.universalsOut_neg

/-- a positive combination without existential formulas loses its quantifiers, whatever the literals -/
theorem IsPositive.universalsOut {L : Term → Prop} (hL : ∀ s, L s → s.IsLiteral Nonlogical) {t : Term}
    (ht : t.IsPositive L (· = .all)) : t.universalsOut.IsPositive L fun _ => False := by
  induction ht with
  | literal h =>
    rw [(hL _ h).universalsOut]
    exact .literal h
  | conj _ ih =>
    rw [Term.conj, apply, universalsOut_app (by decide)]
    exact .conj (List.forall_mem_map.mpr ih)
  | disj _ ih =>
    rw [Term.disj, apply, universalsOut_app (by decide)]
    exact .disj (List.forall_mem_map.mpr ih)
  | quantified hq _ _ ih =>
    obtain rfl := hq
    rw [universalsOut_quantified_all]
    exact ih

theorem isFormula_universalsOut (hP : ∀ s, P s → s.Nonlogical) {t : Term}
    (ht : t.IsFormula P .universal) : t.universalsOut.IsFormula P .matrix :=
  (isFormula_iff_isPositive id id).mpr
    (((isFormula_iff_isPositive id id).mp ht).universalsOut fun _ h => h.of_atomic hP)

/-! ## merging -/

theorem flatten_app {head : String} (hand : head ≠ "and") (hor : head ≠ "or") (args : List Term) :
    (app head args).flatten = app head (args.map flatten) := by
  rw [app, flatten]
  · rw [List.map_cons, flatten]
    rfl
  · exact fun _ he => hand (Term.atom.inj (List.cons.inj he).1)
  · exact fun _ he => hor (Term.atom.inj (List.cons.inj he).1)

theorem flatten_conj (args : List Term) :
    (conj args).flatten = collapse "and" ((args.map flatten).flatMap (parts "and")) := by
  show (list (.atom "and" :: args)).flatten = _
  rw [flatten]

theorem flatten_disj (args : List Term) :
    (disj args).flatten = collapse "or" ((args.map flatten).flatMap (parts "or")) := by
  show (list (.atom "or" :: args)).flatten = _
  rw [flatten]

theorem Nonlogical.flatten {t : Term} (h : t.Nonlogical) : t.flatten = t := by
  match t with
  | .atom a => rw [Term.flatten]
  | .list xs =>
    rw [Term.flatten, map_eq_self fun x hx => (h.of_mem hx).flatten]
    · rintro args rfl
      exact h.head_ne .conj rfl
    · rintro args rfl
      exact h.head_ne .disj rfl

theorem Nonlogical.flatten_neg {t : Term} (h : t.Nonlogical) : t.neg.flatten = t.neg := by
  rw [neg, apply, flatten_app (by decide) (by decide), List.map_cons, List.map_nil, h.flatten]

theorem mem_parts {op : String} {x y : Term} (h : y ∈ x.parts op) :
    y = x ∨ ∃ args, x = .app op args ∧ y ∈ args := by
  by_cases hx : ∃ args, x = .app op args
  · obtain ⟨args, rfl⟩ := hx
    rw [parts_app] at h
    exact .inr ⟨args, rfl, h⟩
  · rw [parts_of_ne op fun args he => hx ⟨args, he⟩, List.mem_singleton] at h
    exact .inl h

section

variable {L : Term → Prop} (hL : ∀ s, L s → s.IsLiteral Nonlogical) {allowed : Quantifier → Prop}

theorem isPositive_collapse {o : Operator} (ho : o = .conj ∨ o = .disj) {ts : List Term}
    (h : ∀ t ∈ ts, t.IsPositive L allowed) : (collapse o.name ts).IsPositive L allowed := by
  unfold collapse
  split
  · exact h _ (by simp)
  · exact .of_parts ho h

include hL

theorem isPositive_parts {o : Operator} (ho : o = .conj ∨ o = .disj) {xs : List Term}
    (h : ∀ x ∈ xs, x.IsPositive L allowed) :
    ∀ y ∈ xs.flatMap (parts o.name), y.IsPositive L allowed := by
  intro y hy
  obtain ⟨x, hx, hy⟩ := List.mem_flatMap.mp hy
  rcases mem_parts hy with rfl | ⟨args, he, hy⟩
  · exact h y hx
  · have hx := h x hx
    rw [he] at hx
    exact hx.of_mem_args hL ho hy

omit hL in
theorem IsLiteral.flatten {t : Term} (h : t.IsLiteral Nonlogical) : t.flatten = t := by
  cases h with
  | atomic h => exact h.flatten
  | negated h => exact h.flatten_neg

theorem IsPositive.flatten {t : Term} (h : t.IsPositive L fun _ => False) :
    t.flatten.IsPositive L fun _ => False := by
  induction h with
  | literal h =>
    rw [(hL _ h).flatten]
    exact .literal h
  | conj _ ih =>
    rw [flatten_conj]
    exact isPositive_collapse (o := .conj) (.inl rfl)
      (isPositive_parts hL (o := .conj) (.inl rfl) (List.forall_mem_map.mpr ih))
  | disj _ ih =>
    rw [flatten_disj]
    exact isPositive_collapse (o := .disj) (.inr rfl)
      (isPositive_parts hL (o := .disj) (.inr rfl) (List.forall_mem_map.mpr ih))
  | quantified hq => exact hq.elim

end

theorem isFormula_flatten (hP : ∀ s, P s → s.Nonlogical) {t : Term} (h : t.IsFormula P .matrix) :
    t.flatten.IsFormula P .matrix :=
  (isFormula_iff_isPositive id id).mpr
    (((isFormula_iff_isPositive id id).mp h).flatten fun _ h => h.of_atomic hP)

/-! ## distributing -/

theorem distribute_conj (args : List Term) :
    (conj args).distribute = conj (args.map distribute) := by
  show (list (.atom "and" :: args)).distribute = _
  rw [distribute]

theorem distribute_disj (args : List Term) :
    (disj args).distribute = distributeParts (args.map distribute) := by
  show (list (.atom "or" :: args)).distribute = _
  rw [distribute]

theorem distribute_app {head : String} (hand : head ≠ "and") (hor : head ≠ "or")
    (args : List Term) : (app head args).distribute = app head args := by
  rw [app, distribute]
  · exact fun _ he => hand (Term.atom.inj (List.cons.inj he).1)
  · exact fun _ he => hor (Term.atom.inj (List.cons.inj he).1)

theorem Nonlogical.distribute {t : Term} (h : t.Nonlogical) : t.distribute = t := by
  match t with
  | .atom a => rw [Term.distribute]
  | .list xs =>
    rw [Term.distribute]
    · rintro args rfl
      exact h.head_ne .conj rfl
    · rintro args rfl
      exact h.head_ne .disj rfl

theorem IsLiteral.distribute {t : Term} (h : t.IsLiteral Nonlogical) : t.distribute = t := by
  cases h with
  | atomic h => exact h.distribute
  | negated _ => exact distribute_app (by decide) (by decide) _

section

variable {L : Term → Prop} (hL : ∀ s, L s → s.IsLiteral Nonlogical)

include hL

theorem isPositive_distributeFrom {allowed : Quantifier → Prop} {before xs : List Term} {t : Term}
    (h : distributeFrom before xs = some t) (hxs : ∀ x ∈ before ++ xs, x.IsPositive L allowed) :
    t.IsPositive L allowed := by
  induction xs generalizing before with
  | nil => cases h
  | cons x after ih =>
    rw [distributeFrom] at h
    split at h
    · next cs hcs =>
      cases h
      obtain rfl := eq_conj_of_conjuncts? hcs
      have hparts : ∀ c ∈ cs, c.IsPositive L allowed := fun c hc =>
        (hxs (.conj cs) (by simp)).of_mem_args hL (o := .conj) (.inl rfl) hc
      refine .conj (List.forall_mem_map.mpr fun c hc => .disj fun y hy => ?_)
      rcases List.mem_append.mp hy with hy | hy
      · exact hxs y (by simp [hy])
      · rcases List.mem_cons.mp hy with rfl | hy
        · exact hparts y hc
        · exact hxs y (by simp [hy])
    · exact ih h fun y hy => hxs y (by simpa using hy)

theorem IsPositive.distribute {t : Term} (h : t.IsPositive L fun _ => False) :
    t.distribute.IsPositive L fun _ => False := by
  induction h with
  | literal h =>
    rw [(hL _ h).distribute]
    exact .literal h
  | conj _ ih =>
    rw [distribute_conj]
    exact .conj (List.forall_mem_map.mpr ih)
  | @disj args _ ih =>
    have hargs : ∀ x ∈ args.map Term.distribute, x.IsPositive L fun _ => False :=
      List.forall_mem_map.mpr ih
    rw [distribute_disj, distributeParts]
    cases hd : distributeFrom [] (args.map Term.distribute) with
    | none => exact .disj hargs
    | some u => exact isPositive_distributeFrom hL hd hargs
  | quantified hq => exact hq.elim

theorem IsPositive.clauseRounds {t : Term} (h : t.IsPositive L fun _ => False) :
    t.clauseRounds.IsPositive L fun _ => False := by
  induction t using Term.clauseRounds.induct with
  | case1 t hfixed => rwa [clauseRounds_of_eq hfixed]
  | case2 t hchanged ih =>
    rw [Term.clauseRounds, if_neg hchanged]
    exact ih ((h.distribute hL).flatten hL)

theorem IsPositive.disjunctionsIn {t : Term} (h : t.IsPositive L fun _ => False) :
    t.disjunctionsIn.IsPositive L fun _ => False := (h.flatten hL).clauseRounds hL

end

section

variable (hP : ∀ s, P s → s.Nonlogical) {t : Term} (h : t.IsFormula P .matrix)

include hP h

theorem isFormula_distribute : t.distribute.IsFormula P .matrix :=
  (isFormula_iff_isPositive id id).mpr
    (((isFormula_iff_isPositive id id).mp h).distribute fun _ h => h.of_atomic hP)

theorem isFormula_disjunctionsIn : t.disjunctionsIn.IsFormula P .matrix :=
  (isFormula_iff_isPositive id id).mpr
    (((isFormula_iff_isPositive id id).mp h).disjunctionsIn fun _ h => h.of_atomic hP)

end

end OntologyPrep.Term
