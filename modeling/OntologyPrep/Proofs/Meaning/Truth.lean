import Mathlib.Logic.Basic
import OntologyPrep.Proofs.Term.Variables

/-!
# When a formula is true

`Term.Truth` says when a formula is true for given values of its names.  What an atomic formula says is
a parameter, so that the same truth serves for several kinds of interpretation; only truth and falsity
themselves are fixed.  A quantified formula speaks about all values that agree with the given ones off
the names that it binds.

There is one equivalence for each connective (`Term.truth_conj`, `Term.truth_disj`, ...), and
`Term.truth_congr` says that the values of the free variables decide.  What is proved from the
equivalences alone holds of every truth that obeys them (`Term.IsClassical`), whatever it says of atomic
formulas.
-/

namespace OntologyPrep

universe u

/-- values for all names -/
abbrev Valuation (D : Type u) := String → D

namespace Valuation

variable {D : Type u}

/-- the second valuation differs from the first on the given names at most -/
def AgreeOff (names : List String) (v w : Valuation D) : Prop := ∀ a, a ∉ names → w a = v a

theorem AgreeOff.refl (names : List String) (v : Valuation D) : AgreeOff names v v := fun _ _ => rfl

theorem AgreeOff.mono {names names' : List String} {v w : Valuation D} (h : AgreeOff names v w)
    (hsub : ∀ a ∈ names, a ∈ names') : AgreeOff names' v w :=
  fun a ha => h a fun hn => ha (hsub a hn)

/-- the values of the second valuation for the given names, and those of the first for all others -/
def override (names : List String) (v w : Valuation D) : Valuation D :=
  fun a => if a ∈ names then w a else v a

theorem override_of_mem {names : List String} {v w : Valuation D} {a : String} (h : a ∈ names) :
    override names v w a = w a := if_pos h

theorem override_of_not_mem {names : List String} {v w : Valuation D} {a : String}
    (h : a ∉ names) : override names v w a = v a := if_neg h

theorem agreeOff_override (names : List String) (v w : Valuation D) :
    AgreeOff names v (override names v w) := fun _ ha => override_of_not_mem ha

/-- two changes of the same values put together: each is kept where the other one does not reach -/
theorem AgreeOff.exists_both {names names' : List String} {v w w' : Valuation D}
    (h : AgreeOff names v w) (h' : AgreeOff names' v w') :
    ∃ u, AgreeOff (names ++ names') v u ∧ (∀ a, a ∉ names' → u a = w a) ∧
      ∀ a, a ∉ names → u a = w' a := by
  refine ⟨override names w' w, fun a ha => ?_, fun a ha => ?_, fun a ha => override_of_not_mem ha⟩
  · rw [List.mem_append, not_or] at ha
    rw [override_of_not_mem ha.1, h' a ha.2]
  · by_cases hn : a ∈ names
    · exact override_of_mem hn
    · rw [override_of_not_mem hn, h' a ha, h a hn]

end Valuation

namespace Term

variable {D : Type u} {holds : Valuation D → Term → Prop} {v w : Valuation D}

/-- the formula is true for the values, where `holds` says what atomic formulas are -/
def Truth (holds : Valuation D → Term → Prop) (v : Valuation D) : Term → Prop
  | .atom a => a = trueName ∨ a ≠ falseName ∧ holds v (.atom a)
  | .list (.atom "and" :: args) => ∀ x ∈ args, x.Truth holds v
  | .list (.atom "or" :: args) => ∃ x, ∃ _ : x ∈ args, x.Truth holds v
  | .list [.atom "not", t] => ¬ t.Truth holds v
  | .list [.atom "=>", s, t] => s.Truth holds v → t.Truth holds v
  | .list [.atom "<=>", s, t] => s.Truth holds v ↔ t.Truth holds v
  | .list [.atom "forall", entries, body] =>
    ∀ w, Valuation.AgreeOff (Binder.mk .all entries body).names v w → body.Truth holds w
  | .list [.atom "exists", entries, body] =>
    ∃ w, Valuation.AgreeOff (Binder.mk .any entries body).names v w ∧ body.Truth holds w
  | .list items => holds v (.list items)

theorem exists_mem_map {f : Term → Term} {args : List Term} {p : Term → Prop} :
    (∃ y ∈ args.map f, p y) ↔ ∃ x ∈ args, p (f x) := by
  simp only [List.mem_map, exists_exists_and_eq_and]

/-! ## the connectives -/

theorem truth_conj (args : List Term) :
    (conj args).Truth holds v ↔ ∀ x ∈ args, x.Truth holds v := by
  show (list (.atom "and" :: args)).Truth holds v ↔ _
  rw [Truth.eq_def]
  rfl

theorem truth_disj (args : List Term) :
    (disj args).Truth holds v ↔ ∃ x ∈ args, x.Truth holds v := by
  show (list (.atom "or" :: args)).Truth holds v ↔ _
  rw [Truth.eq_def]
  show (∃ x, ∃ _ : x ∈ args, x.Truth holds v) ↔ _
  simp only [exists_prop]

theorem truth_neg (t : Term) : t.neg.Truth holds v ↔ ¬ t.Truth holds v := by
  show (list [.atom "not", t]).Truth holds v ↔ _
  rw [Truth.eq_def]
  rfl

theorem truth_implies (s t : Term) :
    (implies s t).Truth holds v ↔ (s.Truth holds v → t.Truth holds v) := by
  show (list [.atom "=>", s, t]).Truth holds v ↔ _
  rw [Truth.eq_def]
  rfl

/-- the equivalence of two formulas -/
def iff (s t : Term) : Term := apply .iff [s, t]

theorem truth_iff (s t : Term) :
    (iff s t).Truth holds v ↔ (s.Truth holds v ↔ t.Truth holds v) := by
  show (list [.atom "<=>", s, t]).Truth holds v ↔ _
  rw [Truth.eq_def]
  rfl

theorem truth_all (names : List String) (body : Term) :
    (quantified Quantifier.all.name names body).Truth holds v ↔
      ∀ w, v.AgreeOff names w → body.Truth holds w := by
  rw [quantified, Truth.eq_def]
  show (∀ w, v.AgreeOff (Binder.mk .all (.list (names.map atom)) body).names w →
    body.Truth holds w) ↔ _
  rw [names_quantified]

theorem truth_any (names : List String) (body : Term) :
    (quantified Quantifier.any.name names body).Truth holds v ↔
      ∃ w, v.AgreeOff names w ∧ body.Truth holds w := by
  rw [quantified, Truth.eq_def]
  show (∃ w, v.AgreeOff (Binder.mk .any (.list (names.map atom)) body).names w ∧
    body.Truth holds w) ↔ _
  rw [names_quantified]

/-- two quantified formulas say the same if each of the values that one looks at has a counterpart among
those that the other one looks at, at which the bodies say the same -/
theorem truth_quantified_transfer (q : Quantifier) {holds' : Valuation D → Term → Prop}
    {v' : Valuation D} {names names' : List String} {body body' : Term}
    (hforth : ∀ w, v.AgreeOff names w →
      ∃ w', v'.AgreeOff names' w' ∧ (body.Truth holds w ↔ body'.Truth holds' w'))
    (hback : ∀ w', v'.AgreeOff names' w' →
      ∃ w, v.AgreeOff names w ∧ (body.Truth holds w ↔ body'.Truth holds' w')) :
    (quantified q.name names body).Truth holds v ↔
      (quantified q.name names' body').Truth holds' v' := by
  cases q with
  | all =>
    rw [truth_all, truth_all]
    constructor
    · intro h w' hw'
      obtain ⟨w, hw, hsame⟩ := hback w' hw'
      exact hsame.mp (h w hw)
    · intro h w hw
      obtain ⟨w', hw', hsame⟩ := hforth w hw
      exact hsame.mpr (h w' hw')
  | any =>
    rw [truth_any, truth_any]
    constructor
    · rintro ⟨w, hw, h⟩
      obtain ⟨w', hw', hsame⟩ := hforth w hw
      exact ⟨w', hw', hsame.mp h⟩
    · rintro ⟨w', hw', h⟩
      obtain ⟨w, hw, hsame⟩ := hback w' hw'
      exact ⟨w, hw, hsame.mpr h⟩

/-- a quantified formula keeps what it says when its body does, for all values that it looks at -/
theorem truth_quantified_congr (q : Quantifier) {holds' : Valuation D → Term → Prop}
    {names : List String} {body body' : Term}
    (h : ∀ w, v.AgreeOff names w → (body.Truth holds w ↔ body'.Truth holds' w)) :
    (quantified q.name names body).Truth holds v ↔ (quantified q.name names body').Truth holds' v :=
  truth_quantified_transfer q (fun w hw => ⟨w, hw, h w hw⟩) fun w hw => ⟨w, hw, h w hw⟩

/-- the other quantifier over a body that says the opposite says the opposite -/
theorem truth_quantified_dual (q : Quantifier) {names : List String} {body body' : Term}
    (h : ∀ w, v.AgreeOff names w → (body'.Truth holds w ↔ ¬ body.Truth holds w)) :
    (quantified q.dual.name names body').Truth holds v ↔
      ¬ (quantified q.name names body).Truth holds v := by
  cases q with
  | all =>
    rw [Quantifier.dual, truth_any, truth_all]
    simp only [Classical.not_forall, exists_prop]
    exact exists_congr fun w => and_congr_right (h w)
  | any =>
    rw [Quantifier.dual, truth_all, truth_any]
    simp only [not_exists, not_and]
    exact forall₂_congr h

/-- a quantified formula that binds no names says what its body says -/
theorem truth_quantified_nil (q : Quantifier) (body : Term) :
    (quantified q.name [] body).Truth holds v ↔ body.Truth holds v := by
  have hsame : ∀ w : Valuation D, v.AgreeOff [] w → w = v := fun w hw =>
    funext fun a => hw a List.not_mem_nil
  cases q with
  | all =>
    rw [truth_all]
    refine ⟨fun h => h v (.refl _ v), fun h w hw => ?_⟩
    rw [hsame w hw]
    exact h
  | any =>
    rw [truth_any]
    constructor
    · rintro ⟨w, hw, h⟩
      rw [← hsame w hw]
      exact h
    · exact fun h => ⟨v, .refl _ v, h⟩

theorem truth_verum : verum.Truth holds v := by
  rw [verum, Truth.eq_def]
  exact .inl rfl

theorem not_truth_falsum : ¬ falsum.Truth holds v := by
  rw [falsum, Truth.eq_def]
  rintro (h | h)
  · exact absurd h (by decide)
  · exact h.1 rfl

theorem truth_atom {a : String} (ht : a ≠ trueName) (hf : a ≠ falseName) :
    (atom a).Truth holds v ↔ holds v (.atom a) := by
  rw [Truth.eq_def]
  exact ⟨fun h => (h.resolve_left ht).2, fun h => .inr ⟨hf, h⟩⟩

theorem truth_app {head : String} (args : List Term) (h : Name.isOperator head = false) :
    (app head args).Truth holds v ↔ holds v (app head args) := by
  have hne : ∀ o : Operator, head ≠ o.name := Name.ne_operator_of_not_isOperator h
  rw [app, Truth]
  · exact fun _ h => hne .conj (Term.atom.inj (List.cons.inj h).1)
  · exact fun _ h => hne .disj (Term.atom.inj (List.cons.inj h).1)
  · exact fun _ h => hne .neg (Term.atom.inj (List.cons.inj h).1)
  · exact fun _ _ h => hne .implies (Term.atom.inj (List.cons.inj h).1)
  · exact fun _ _ h => hne .iff (Term.atom.inj (List.cons.inj h).1)
  · exact fun _ _ h => hne (.quant .all) (Term.atom.inj (List.cons.inj h).1)
  · exact fun _ _ h => hne (.quant .any) (Term.atom.inj (List.cons.inj h).1)

/-! ## truth in general -/

/-- the connectives and the quantifiers say what they classically say of the truth of their parts; of
atomic formulas nothing is asked, and truth and falsity are no exception -/
structure IsClassical (T : Valuation D → Term → Prop) : Prop where
  conj : ∀ {v args}, T v (.conj args) ↔ ∀ x ∈ args, T v x
  disj : ∀ {v args}, T v (.disj args) ↔ ∃ x ∈ args, T v x
  neg : ∀ {v t}, T v t.neg ↔ ¬ T v t
  implies : ∀ {v s t}, T v (.implies s t) ↔ (T v s → T v t)
  iff : ∀ {v s t}, T v (.iff s t) ↔ (T v s ↔ T v t)
  all : ∀ {v names body}, T v (quantified Quantifier.all.name names body) ↔
    ∀ w, v.AgreeOff names w → T w body
  any : ∀ {v names body}, T v (quantified Quantifier.any.name names body) ↔
    ∃ w, v.AgreeOff names w ∧ T w body

theorem isClassical_truth (holds : Valuation D → Term → Prop) : IsClassical (Truth holds) where
  conj := truth_conj _
  disj := truth_disj _
  neg := truth_neg _
  implies := truth_implies _ _
  iff := truth_iff _ _
  all := truth_all _ _
  any := truth_any _ _

end Term

end OntologyPrep
