import OntologyPrep.Proofs.Term.Variables

/-!
# The names that quantified formulas bind

`Term.boundBy` lists the names that the quantified formulas in a term bind, an outer formula before an
inner one and from left to right; `Term.bound` takes all quantifiers together.
-/

namespace OntologyPrep.Term

/-- the names that the quantified formulas of a kind bind -/
def boundBy (kind : Quantifier → Bool) : Term → List String
  | .atom _ => []
  | .list items =>
    match _h : (Term.list items).binder? with
    | some b => (if kind b.quantifier then b.names else []) ++ b.body.boundBy kind
    | none => items.flatMap (boundBy kind)
termination_by t => sizeOf t
decreasing_by
  · exact sizeOf_body_lt ‹_›
  · decreasing_tactic

/-- all bound names -/
def bound (t : Term) : List String := t.boundBy fun _ => true

/-- the names that existential formulas bind -/
def existentials (t : Term) : List String := t.boundBy fun q => q = .any

theorem boundBy_atom (kind : Quantifier → Bool) (a : String) : (atom a).boundBy kind = [] := by
  rw [boundBy]

theorem boundBy_binder (kind : Quantifier → Bool) (b : Binder) :
    b.toTerm.boundBy kind =
      (if kind b.quantifier then b.names else []) ++ b.body.boundBy kind := by
  have h := binder?_toTerm b
  rw [Binder.toTerm] at h ⊢
  rw [boundBy]
  split
  · next b' hb' =>
    rw [h] at hb'
    cases hb'
    rfl
  · next hn =>
    rw [h] at hn
    cases hn

theorem boundBy_list (kind : Quantifier → Bool) {xs : List Term}
    (h : (list xs).binder? = none) : (list xs).boundBy kind = xs.flatMap (boundBy kind) := by
  rw [boundBy]
  split
  · next b hb =>
    rw [h] at hb
    cases hb
  · rfl

theorem bound_atom (a : String) : (atom a).bound = [] := boundBy_atom _ a

theorem bound_binder (b : Binder) : b.toTerm.bound = b.names ++ b.body.bound :=
  boundBy_binder _ b

theorem bound_list {xs : List Term} (h : (list xs).binder? = none) :
    (list xs).bound = xs.flatMap bound := boundBy_list _ h

theorem boundBy_quantified (kind : Quantifier → Bool) (q : Quantifier) (names : List String)
    (body : Term) : (quantified q.name names body).boundBy kind =
      (if kind q then names else []) ++ body.boundBy kind := by
  rw [quantified_eq_toTerm, boundBy_binder, names_quantified]

theorem bound_quantified (q : Quantifier) (names : List String) (body : Term) :
    (quantified q.name names body).bound = names ++ body.bound := by
  rw [bound, boundBy_quantified]
  rfl

theorem boundBy_app (kind : Quantifier → Bool) {head : String}
    (h : Name.isQuantifier head = false) (args : List Term) :
    (app head args).boundBy kind = args.flatMap (boundBy kind) := by
  have hb : (list (.atom head :: args)).binder? = none := binder?_app_eq_none args h
  rw [app, boundBy_list kind hb, List.flatMap_cons, boundBy_atom, List.nil_append]

theorem bound_app {head : String} (h : Name.isQuantifier head = false) (args : List Term) :
    (app head args).bound = args.flatMap bound := boundBy_app _ h args

theorem sublist_bound_of_mem {xs : List Term} {x : Term} (h : x ∈ xs) :
    x.bound.Sublist (xs.flatMap bound) := by
  rw [List.flatMap_def]
  exact List.sublist_flatten_of_mem (List.mem_map_of_mem h)

/-- no name is bound twice, or both free and bound -/
structure Apart (t : Term) : Prop where
  nodup : t.bound.Nodup
  disjoint : ∀ a ∈ t.freeVariables, a ∉ t.bound

end OntologyPrep.Term
