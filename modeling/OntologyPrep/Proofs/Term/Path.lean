import OntologyPrep.Term.Basic

/-!
# Parts of a term by paths

A path says by positions how to come from a term to one of its parts.  `Path.Before` is the order in
which parts are visited from left to right, each behind its own parts: an asymmetric relation, so that
there is one first part of a kind.

`Term.InEntries` says of a path that it leads into the entries of a quantified formula.
-/

namespace OntologyPrep

/-- the first path is visited before the second one, where inner parts come before outer ones -/
inductive Path.Before : List Nat → List Nat → Prop where
  | inner (i : Nat) (path : List Nat) : Path.Before (i :: path) []
  | left {i j : Nat} (path other : List Nat) : i < j → Path.Before (i :: path) (j :: other)
  | under (i : Nat) {path other : List Nat} : Path.Before path other →
    Path.Before (i :: path) (i :: other)

theorem Path.Before.asymm {path other : List Nat} (h : Path.Before path other) :
    ¬ Path.Before other path := by
  induction h with
  | inner i path => exact fun h' => nomatch h'
  | left path other hlt =>
    intro h'
    cases h' with
    | left _ _ hgt => omega
    | under => omega
  | under i _ ih =>
    intro h'
    cases h' with
    | left _ _ hlt => omega
    | under _ h' => exact ih h'

namespace Term

/-- the part of a term that a path leads to -/
def part? : Term → List Nat → Option Term
  | t, [] => some t
  | t, i :: path => t.items[i]?.bind fun x => x.part? path

@[simp] theorem part?_nil (t : Term) : t.part? [] = some t := by rw [part?]

theorem part?_cons (t : Term) (i : Nat) (path : List Nat) :
    t.part? (i :: path) = t.items[i]?.bind fun x => x.part? path := by rw [part?]

/-- the path leads into the entries of a quantified formula -/
def InEntries (t : Term) (path : List Nat) : Prop :=
  ∃ outer inner b, path = outer ++ 1 :: inner ∧ (t.part? outer).bind binder? = some b

variable {t : Term} {i : Nat} {path : List Nat}

theorem not_inEntries_nil : ¬ t.InEntries [] := by
  intro h
  obtain ⟨outer, inner, b, hpath, -⟩ := h
  cases outer <;> cases hpath

/-- the entries are those of the term itself, or of a formula in one of its elements -/
theorem inEntries_cons : t.InEntries (i :: path) ↔
    (i = 1 ∧ ∃ b, t.binder? = some b) ∨ ∃ x, t.items[i]? = some x ∧ x.InEntries path := by
  constructor
  · intro h
    obtain ⟨outer, inner, b, hpath, hb⟩ := h
    cases outer with
    | nil =>
      cases hpath
      exact .inl ⟨rfl, b, hb⟩
    | cons j outer =>
      obtain ⟨rfl, rfl⟩ := List.cons.inj hpath
      rw [part?_cons, Option.bind_assoc] at hb
      obtain ⟨x, hx, hb⟩ := Option.bind_eq_some_iff.mp hb
      exact .inr ⟨x, hx, outer, inner, b, rfl, hb⟩
  · intro h
    rcases h with ⟨rfl, b, hb⟩ | ⟨x, hx, outer, inner, b, rfl, hb⟩
    · exact ⟨[], path, b, rfl, hb⟩
    · refine ⟨i :: outer, inner, b, rfl, ?_⟩
      rw [part?_cons, hx]
      exact hb

end Term

end OntologyPrep
