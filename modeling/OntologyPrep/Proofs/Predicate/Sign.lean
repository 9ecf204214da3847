import OntologyPrep.Predicate.Binding
import OntologyPrep.Proofs.Meaning.Formula
import OntologyPrep.Proofs.Meaning.Substitution

/-!
# Which quantified formulas speak of all values

A universal formula speaks of all values of a name, unless it is negated; an existential one does if it
is.  `Term.quantifiersOf` lists the quantified formulas that bind a name, each with the sign of its
place, and `Term.speaksOfAll` says that a name is free or first bound by a formula that speaks of all
its values.  The first of these formulas is the one that `Term.assignBound?` takes
(`Term.exists_assignBound?`).
-/

namespace OntologyPrep

/-- the sign of a place: under an even number of negations, under an odd number, or under an
equivalence -/
inductive Sign where
  | positive
  | negative
  | both
  deriving DecidableEq, Repr

namespace Sign

/-- the sign under one negation more -/
def flip : Sign → Sign
  | positive => negative
  | negative => positive
  | both => both

/-- a quantified formula at a place of the sign speaks of all values -/
def speaksOfAll (sign : Sign) : Quantifier → Bool
  | .all => sign = positive
  | .any => sign = negative

end Sign

namespace Term

/-- the quantified formulas that bind the name, outer ones before inner ones and from left to right -/
def quantifiersOf (name : String) (sign : Sign) : Term → List (Quantifier × Sign)
  | .atom _ => []
  | .list [.atom "not", t] => t.quantifiersOf name sign.flip
  | .list [.atom "=>", s, t] => s.quantifiersOf name sign.flip ++ t.quantifiersOf name sign
  | .list [.atom "<=>", s, t] => s.quantifiersOf name .both ++ t.quantifiersOf name .both
  | .list [.atom "forall", entries, body] =>
    (if name ∈ (Binder.mk .all entries body).names then [(.all, sign)] else []) ++
      body.quantifiersOf name sign
  | .list [.atom "exists", entries, body] =>
    (if name ∈ (Binder.mk .any entries body).names then [(.any, sign)] else []) ++
      body.quantifiersOf name sign
  | .list items => items.flatMap (quantifiersOf name sign)

/-- the name is free, or the first quantified formula that binds it speaks of all its values -/
def speaksOfAll (name : String) (t : Term) : Bool :=
  t.freeVariables.contains name ||
    (t.quantifiersOf name .positive).head?.all fun b => b.2.speaksOfAll b.1

variable {name : String} {sign : Sign}

theorem quantifiersOf_neg (t : Term) :
    t.neg.quantifiersOf name sign = t.quantifiersOf name sign.flip := by
  show (list [.atom "not", t]).quantifiersOf name sign = _
  rw [quantifiersOf.eq_def]
  rfl

theorem quantifiersOf_implies (s t : Term) : (implies s t).quantifiersOf name sign =
    s.quantifiersOf name sign.flip ++ t.quantifiersOf name sign := by
  show (list [.atom "=>", s, t]).quantifiersOf name sign = _
  rw [quantifiersOf.eq_def]
  rfl

theorem quantifiersOf_iff (s t : Term) : (iff s t).quantifiersOf name sign =
    s.quantifiersOf name .both ++ t.quantifiersOf name .both := by
  show (list [.atom "<=>", s, t]).quantifiersOf name sign = _
  rw [quantifiersOf.eq_def]
  rfl

theorem quantifiersOf_quantified (q : Quantifier) (names : List String) (body : Term) :
    (quantified q.name names body).quantifiersOf name sign =
      (if name ∈ names then [(q, sign)] else []) ++ body.quantifiersOf name sign := by
  cases q with
  | all =>
    show (list [.atom "forall", .list (names.map atom), body]).quantifiersOf name sign = _
    rw [quantifiersOf, names_quantified]
  | any =>
    show (list [.atom "exists", .list (names.map atom), body]).quantifiersOf name sign = _
    rw [quantifiersOf, names_quantified]

theorem quantifiersOf_app {head : String} (args : List Term) (hnot : head ≠ "not")
    (hto : head ≠ "=>") (hiff : head ≠ "<=>") (hq : Name.isQuantifier head = false) :
    (app head args).quantifiersOf name sign = args.flatMap (quantifiersOf name sign) := by
  have hall : head ≠ "forall" := by
    rintro rfl
    cases hq
  have hany : head ≠ "exists" := by
    rintro rfl
    cases hq
  rw [app, quantifiersOf]
  · rw [List.flatMap_cons, quantifiersOf, List.nil_append]
  · exact fun _ h => hnot (Term.atom.inj (List.cons.inj h).1)
  · exact fun _ _ h => hto (Term.atom.inj (List.cons.inj h).1)
  · exact fun _ _ h => hiff (Term.atom.inj (List.cons.inj h).1)
  · exact fun _ _ h => hall (Term.atom.inj (List.cons.inj h).1)
  · exact fun _ _ h => hany (Term.atom.inj (List.cons.inj h).1)

theorem quantifiersOf_conj (args : List Term) :
    (conj args).quantifiersOf name sign = args.flatMap (quantifiersOf name sign) :=
  quantifiersOf_app args (by decide) (by decide) (by decide) (by decide)

theorem quantifiersOf_disj (args : List Term) :
    (disj args).quantifiersOf name sign = args.flatMap (quantifiersOf name sign) :=
  quantifiersOf_app args (by decide) (by decide) (by decide) (by decide)

/-! ## the formula that is taken -/

variable {value : Term}

theorem assignBoundIn?_cons_of_none {x : Term} (h : assignBound? name value x = none)
    (xs : List Term) : assignBoundIn? name value (x :: xs) =
      (assignBoundIn? name value xs).map (x :: ·) := by
  rw [assignBoundIn?, h]

theorem assignBoundIn?_cons_of_some {x x' : Term} (h : assignBound? name value x = some x')
    (xs : List Term) : assignBoundIn? name value (x :: xs) = some (x' :: xs) := by
  rw [assignBoundIn?, h]

theorem assignBound?_atom (a : String) : assignBound? name value (.atom a) = none := by
  rw [assignBound?]

theorem assignBound?_app {head : String} (hq : Name.isQuantifier head = false) (args : List Term) :
    assignBound? name value (app head args) =
      (assignBoundIn? name value args).map (app head) := by
  have hb : (list (.atom head :: args)).binder? = none := binder?_app_eq_none args hq
  rw [app, assignBound?, hb, assignBoundIn?_cons_of_none (assignBound?_atom head), Option.map_map]
  rfl

theorem assignBound?_quantified_of_mem (q : Quantifier) {names : List String} (body : Term)
    (h : name ∈ names) : assignBound? name value (quantified q.name names body) =
      some ((Binder.mk q (.list (names.map atom)) body).assign name value) := by
  have hb := binder?_quantified q names body
  rw [quantified, app] at hb ⊢
  rw [assignBound?, hb, Option.filter_some, if_pos]
  rw [names_quantified]
  simpa using h

/-- nothing is taken of a list of variables -/
theorem assignBound?_names {names : List String} (h : ∀ n ∈ names, Name.isVariable n = true) :
    assignBound? name value (list (names.map atom)) = none := by
  have hatoms : ∀ ns : List String, assignBoundIn? name value (ns.map atom) = none := by
    intro ns
    induction ns with
    | nil => rw [List.map_nil, assignBoundIn?]
    | cons n ns ih =>
      rw [List.map_cons, assignBoundIn?_cons_of_none (assignBound?_atom n), ih]
      rfl
  have hb : (list (names.map atom)).binder? = none := by
    rw [Option.eq_none_iff_forall_ne_some]
    intro b hb
    cases names with
    | nil => cases binder?_eq_some_iff.mp hb
    | cons n ns =>
      have hn := Term.atom.inj (List.cons.inj (Term.list.inj (binder?_eq_some_iff.mp hb))).1
      have hvar := h n (by simp)
      rw [hn, Quantifier.not_isVariable] at hvar
      cases hvar
  rw [assignBound?, hb, Option.filter_none, hatoms]
  rfl

theorem assignBound?_quantified_of_not_mem (q : Quantifier) {names : List String} (body : Term)
    (hnames : ∀ n ∈ names, Name.isVariable n = true) (h : name ∉ names) :
    assignBound? name value (quantified q.name names body) =
      (assignBound? name value body).map (quantified q.name names) := by
  have hb := binder?_quantified q names body
  rw [quantified, app] at hb ⊢
  rw [assignBound?, hb, Option.filter_some, if_neg]
  · rw [assignBoundIn?_cons_of_none (assignBound?_atom _),
      assignBoundIn?_cons_of_none (assignBound?_names hnames)]
    cases hbody : assignBound? name value body with
    | none =>
      rw [assignBoundIn?_cons_of_none hbody, assignBoundIn?]
      rfl
    | some body' =>
      rw [assignBoundIn?_cons_of_some hbody]
      rfl
  · rw [names_quantified]
    simpa using h

/-- what is taken in a list is taken in its first element where something is -/
theorem exists_split_of_assignBoundIn? {xs xs' : List Term}
    (h : assignBoundIn? name value xs = some xs') :
    ∃ before x x' after, xs = before ++ x :: after ∧ xs' = before ++ x' :: after ∧
      assignBound? name value x = some x' ∧ ∀ y ∈ before, assignBound? name value y = none := by
  induction xs generalizing xs' with
  | nil =>
    rw [assignBoundIn?] at h
    cases h
  | cons y ys ih =>
    cases hy : assignBound? name value y with
    | some y' =>
      rw [assignBoundIn?_cons_of_some hy] at h
      cases h
      exact ⟨[], y, y', ys, rfl, rfl, hy, fun z hz => absurd hz List.not_mem_nil⟩
    | none =>
      rw [assignBoundIn?_cons_of_none hy] at h
      obtain ⟨ys', hys, rfl⟩ := Option.map_eq_some_iff.mp h
      obtain ⟨before, x, x', after, rfl, rfl, hx, hbefore⟩ := ih hys
      exact ⟨y :: before, x, x', after, rfl, rfl, hx, List.forall_mem_cons.mpr ⟨hy, hbefore⟩⟩

theorem assignBoundIn?_eq_none {xs : List Term} :
    assignBoundIn? name value xs = none ↔ ∀ x ∈ xs, assignBound? name value x = none := by
  induction xs with
  | nil => simp [assignBoundIn?]
  | cons x xs ih =>
    rw [List.forall_mem_cons, ← ih]
    cases hx : assignBound? name value x with
    | some x' =>
      rw [assignBoundIn?_cons_of_some hx]
      simp
    | none =>
      rw [assignBoundIn?_cons_of_none hx, Option.map_eq_none_iff]
      simp

end Term

end OntologyPrep
