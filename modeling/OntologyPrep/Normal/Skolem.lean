import OntologyPrep.Fresh.Supply
import OntologyPrep.Term.Substitution
import OntologyPrep.Term.Variables
import OntologyPrep.Weight

/-!
# Formulas without quantifiers

* `Term.existentialsOut`   every existential formula by its body, each of its names replaced by a
                           fresh Skolem term over the universals in scope;
* `Term.universalsOut`     every universal formula by its body.

In scope are the free variables of the whole formula and the names of the universal formulas around.
Skolemising goes on inside the body after the replacement.  It ends because a Skolem term brings no
quantified formula along (`Term.binders_substitute_le`).
-/

namespace OntologyPrep

namespace Term

/-! ## counting quantified formulas -/

/-- the number of quantified formulas in a term -/
def binders : Term → Nat
  | .atom _ => 0
  | .list items => (if (Term.list items).binder?.isSome then 1 else 0) + total (items.map binders)

theorem binders_list (xs : List Term) :
    (list xs).binders = (if (list xs).binder?.isSome then 1 else 0) + total (xs.map binders) := by
  rw [binders]

theorem binders_le_of_mem {xs : List Term} {x : Term} (h : x ∈ xs) :
    x.binders ≤ (list xs).binders := by
  have : x.binders ≤ total (xs.map binders) := by
    induction xs with
    | nil => cases h
    | cons y ys ih =>
      simp only [List.map_cons, total_cons]
      rcases List.mem_cons.mp h with rfl | hy
      · omega
      · have := ih hy
        omega
  rw [binders_list]
  omega

theorem binders_body_lt {t : Term} {b : Binder} (h : t.binder? = some b) :
    b.body.binders < t.binders := by
  rw [binder?_eq_some_iff.mp h, Binder.toTerm, binders_list, ← Binder.toTerm, binder?_toTerm]
  simp only [Option.isSome_some, if_true, List.map_cons, List.map_nil, total_cons]
  omega

/-- a term that is no quantifier and holds no quantified formula -/
def Inert (t : Term) : Prop := t.binders = 0 ∧ ∀ q : Quantifier, t ≠ .atom q.name

/-- putting an inert term in the place of a name adds no quantified formula -/
theorem binders_substitute_le (t : Term) (name : String) {value : Term} (hv : value.Inert) :
    (t.substitute name value).binders ≤ t.binders := by
  match t with
  | .atom a =>
    rw [substitute_atom]
    split
    · rw [hv.1]
      exact Nat.zero_le _
    · exact Nat.le_refl _
  | .list xs =>
    by_cases hb : name ∈ (list xs).boundNames
    · exact Nat.le_of_eq (by rw [substitute_of_bound value hb])
    · rw [substitute_list value hb, binders_list, binders_list]
      have hsum : total ((xs.map fun x => x.substitute name value).map binders) ≤
          total (xs.map binders) := by
        have ih : ∀ x ∈ xs, (x.substitute name value).binders ≤ x.binders :=
          fun x _ => binders_substitute_le x name hv
        clear hb
        induction xs with
        | nil => simp
        | cons x xs ihxs =>
          have hx := ih x (by simp)
          have hs := ihxs fun y hy => ih y (by simp [hy])
          simp only [List.map_cons, total_cons]
          omega
      by_cases hm : (list (xs.map fun x => x.substitute name value)).binder?.isSome = true
      · rw [if_pos hm, if_pos (isSome_binder?_of_substitute hv.2 hm)]
        omega
      · rw [if_neg hm]
        omega

end Term

/-! ## Skolem terms -/

theorem Supply.inert_skolem (universals : List String) (s : Supply) :
    (skolem universals s).1.Inert := by
  have hne : ∀ (stem : String) (q : Quantifier), 'S' ∈ stem.toList → stem ≠ q.name := by
    intro stem q hs h
    rw [h] at hs
    cases q <;> exact absurd hs (by decide)
  have hS : ∀ (stem : String), 'S' ∈ stem.toList →
      ∀ q : Quantifier, stem ++ s.next.index ≠ q.name := fun stem hs q =>
    hne _ q (by simp [hs])
  cases universals with
  | nil =>
    refine ⟨by simp [skolem_nil, Term.binders], fun q h => ?_⟩
    rw [skolem_nil] at h
    exact hS "Sk" (by decide) q (by injection h)
  | cons u us =>
    rw [skolem_cons]
    refine ⟨?_, fun q h => by cases h⟩
    rw [Term.app, Term.binders_list]
    have hb : ∀ args : List Term,
        (Term.list (.atom ("SkFn" ++ s.next.index) :: args)).binder? = none := by
      intro args
      rw [Option.eq_none_iff_forall_ne_some]
      intro b hb
      have := Term.binder?_eq_some_iff.mp hb
      rw [Binder.toTerm, Term.list.injEq, List.cons.injEq, Term.atom.injEq] at this
      exact hS "SkFn" (by decide) _ this.1
    rw [hb]
    have hz : ∀ names : List String, total ((names.map Term.atom).map Term.binders) = 0 := by
      intro names
      induction names with
      | nil => rfl
      | cons n ns ih =>
        rw [List.map_cons, List.map_cons, total_cons, ih, Term.binders]
    rw [List.map_cons, total_cons, hz]
    simp [Term.binders]

/-- the body of an existential formula with a Skolem term for each of the names -/
def Term.skolemizeNames (universals : List String) :
    List String → Term → StateM Supply Term
  | [], body => pure body
  | name :: names, body => do
    let value ← Supply.skolem universals
    skolemizeNames universals names (body.substitute name value)

theorem Term.binders_skolemizeNames_le (universals names : List String) (body : Term)
    (s : Supply) : (skolemizeNames universals names body s).1.binders ≤ body.binders := by
  induction names generalizing body s with
  | nil => exact Nat.le_refl _
  | cons name names ih =>
    exact Nat.le_trans (ih _ _)
      (binders_substitute_le body name (Supply.inert_skolem universals s))

namespace Term

/-! ## the two stages -/

/-- existential formulas by their Skolemised bodies, with the given universals in scope -/
def skolemize (universals : List String) (t : Term) : StateM Supply Term :=
  match t with
  | .atom a => pure (.atom a)
  | .list items =>
    match _h : (Term.list items).binder? with
    | some b =>
      match b.quantifier with
      | .all => do
        let body ← b.body.skolemize (universals ++ b.names)
        return .quantified Quantifier.all.name b.names body
      | .any => fun s =>
        let r := b.body.skolemizeNames universals b.names s
        r.1.skolemize universals r.2
    | none => return .list (← items.mapM (skolemize universals))
termination_by (t.binders, sizeOf t)
decreasing_by
  · exact Prod.Lex.left _ _ (binders_body_lt ‹_›)
  · exact Prod.Lex.left _ _
      (Nat.lt_of_le_of_lt (binders_skolemizeNames_le _ _ _ _) (binders_body_lt ‹_›))
  · have hx := binders_le_of_mem ‹_ ∈ items›
    have hs := List.sizeOf_lt_of_mem ‹_ ∈ items›
    rcases Nat.lt_or_eq_of_le hx with hlt | heq
    · exact Prod.Lex.left _ _ hlt
    · rw [heq]
      refine Prod.Lex.right _ ?_
      rw [list.sizeOf_spec]
      omega

/-- existential formulas by their Skolemised bodies -/
def existentialsOut (t : Term) : StateM Supply Term := t.skolemize t.freeVariables

/-- universal formulas by their bodies -/
def universalsOut : Term → Term
  | .atom a => .atom a
  | .list items =>
    match _h : (Term.list items).binder? with
    | some b =>
      match b.quantifier with
      | .all => b.body.universalsOut
      | .any => .list (items.map universalsOut)
    | none => .list (items.map universalsOut)
termination_by t => sizeOf t
decreasing_by
  · exact sizeOf_body_lt ‹_›
  · decreasing_tactic
  · decreasing_tactic

end Term

end OntologyPrep
