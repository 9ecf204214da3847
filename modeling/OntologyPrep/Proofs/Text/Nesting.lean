import Mathlib.Data.List.Basic
import Mathlib.Order.Basic
import OntologyPrep.Text.Balance

/-!
# The depth of parentheses in a text

`Balance.Within.after` says what some characters leave open besides parentheses, and
`Balance.Within.depth` counts their opening parentheses outside of string literals and comments, less
the closing ones.

`Balance.isBalanced_iff` says that a text is balanced exactly if the depth never falls below zero,
comes back to zero, and no string literal is open at the end.
-/

namespace OntologyPrep.Balance

namespace Within

/-- what is open after one more character -/
def next (w : Within) (c : Char) : Within :=
  match w with
  | .comment => if c = '\n' then .code else .comment
  | .escape => .quoted
  | .quoted => if c = '\\' then .escape else if c = '\x22' then .code else .quoted
  | .code => if c = '\x22' then .quoted else if c = ';' then .comment else .code

/-- what is open after some more characters -/
def after (w : Within) (cs : List Char) : Within := cs.foldl next w

/-- what a character adds to the number of open parentheses -/
def change (w : Within) (c : Char) : Int :=
  if w = .code then if c = '(' then 1 else if c = ')' then -1 else 0 else 0

/-- opening parentheses outside of string literals and comments, less closing ones -/
def depth (w : Within) : List Char → Int
  | [] => 0
  | c :: cs => w.change c + (w.next c).depth cs

@[simp] theorem after_nil (w : Within) : w.after [] = w := rfl

@[simp] theorem after_cons (w : Within) (c : Char) (cs : List Char) :
    w.after (c :: cs) = (w.next c).after cs := rfl

theorem after_append (w : Within) (xs ys : List Char) :
    w.after (xs ++ ys) = (w.after xs).after ys := List.foldl_append

@[simp] theorem depth_nil (w : Within) : w.depth [] = 0 := rfl

@[simp] theorem depth_cons (w : Within) (c : Char) (cs : List Char) :
    w.depth (c :: cs) = w.change c + (w.next c).depth cs := rfl

theorem depth_append (w : Within) (xs ys : List Char) :
    w.depth (xs ++ ys) = w.depth xs + (w.after xs).depth ys := by
  induction xs generalizing w with
  | nil => simp
  | cons c cs ih =>
    rw [List.cons_append, depth_cons, depth_cons, after_cons, ih]
    omega

end Within

/-! ## the automaton -/

/-- a step fails where the depth would fall below zero, and otherwise changes it -/
theorem step_eq_some_iff {s t : State} {c : Char} : step s c = some t ↔
    0 ≤ s.depth + s.within.change c ∧ (t.depth : Int) = s.depth + s.within.change c ∧
      t.within = s.within.next c := by
  obtain ⟨d, w⟩ := s
  obtain ⟨e, x⟩ := t
  cases w with
  | code =>
    by_cases hclosing : c = ')'
    · subst hclosing
      simp only [step, Within.change, Within.next, if_true, show (')' : Char) ≠ '\x22' by decide,
        show (')' : Char) ≠ ';' by decide, show (')' : Char) ≠ '(' by decide, if_false]
      by_cases hd : d = 0 <;> grind
    · simp only [step, Within.change, Within.next]
      grind
  | comment => simp only [step, Within.change, Within.next]; grind
  | quoted => simp only [step, Within.change, Within.next]; grind
  | escape => simp only [step, Within.change, Within.next]; grind

theorem forall_prefix_cons {α : Type} {x : α} {xs : List α} {P : List α → Prop} :
    (∀ first, first <+: x :: xs → P first) ↔ P [] ∧ ∀ first, first <+: xs → P (x :: first) := by
  constructor
  · exact fun h => ⟨h [] (List.nil_prefix), fun first hf => h _ (List.cons_prefix_cons.mpr ⟨rfl, hf⟩)⟩
  · rintro ⟨hnil, hcons⟩ first hf
    rcases List.prefix_cons_iff.mp hf with rfl | ⟨tail, rfl, ht⟩
    · exact hnil
    · exact hcons tail ht

/-- reading some characters fails where the depth would fall below zero -/
theorem foldlM_step_eq_some_iff {cs : List Char} {s t : State} :
    cs.foldlM step s = some t ↔
      (∀ first, first <+: cs → 0 ≤ s.depth + s.within.depth first) ∧
        (t.depth : Int) = s.depth + s.within.depth cs ∧ t.within = s.within.after cs := by
  induction cs generalizing s with
  | nil =>
    obtain ⟨d, w⟩ := s
    obtain ⟨e, x⟩ := t
    simp
    grind
  | cons c cs ih =>
    rw [List.foldlM_cons, Option.bind_eq_bind, Option.bind_eq_some_iff, forall_prefix_cons]
    simp only [Within.depth_cons, Within.after_cons, Within.depth_nil, ← Int.add_assoc]
    constructor
    · rintro ⟨mid, hmid, hrest⟩
      obtain ⟨hpos, hdepth, hwithin⟩ := step_eq_some_iff.mp hmid
      rw [ih, hdepth, hwithin] at hrest
      exact ⟨⟨by omega, hrest.1⟩, hrest.2⟩
    · rintro ⟨⟨_, hpos⟩, hlast⟩
      have hchange : 0 ≤ s.depth + s.within.change c := by
        have h := hpos [] List.nil_prefix
        rwa [Within.depth_nil, Int.add_zero] at h
      refine ⟨⟨(s.depth + s.within.change c).toNat, s.within.next c⟩,
        step_eq_some_iff.mpr ⟨hchange, Int.toNat_of_nonneg hchange, rfl⟩, ?_⟩
      rw [ih, Int.toNat_of_nonneg hchange]
      exact ⟨hpos, hlast⟩

/-- parentheses and quotes pair up exactly if the depth stays above zero, is zero at the end, and no
string literal is open there -/
theorem isBalanced_iff (text : String) : isBalanced text = true ↔
    (∀ first, first <+: text.toList → 0 ≤ Within.code.depth first) ∧
      Within.code.depth text.toList = 0 ∧
      (Within.code.after text.toList = .code ∨ Within.code.after text.toList = .comment) := by
  have hclosed : ∀ s : State, s.closed = true ↔
      s.depth = 0 ∧ (s.within = .code ∨ s.within = .comment) := fun s => by simp [State.closed]
  rw [isBalanced, Option.any_eq_true]
  simp only [foldlM_step_eq_some_iff, hclosed, Int.natCast_zero, Int.zero_add]
  constructor
  · rintro ⟨s, ⟨hpos, hdepth, hwithin⟩, hzero, hopen⟩
    rw [hzero] at hdepth
    exact ⟨hpos, hdepth.symm, hwithin ▸ hopen⟩
  · rintro ⟨hpos, hdepth, hopen⟩
    exact ⟨⟨0, Within.code.after text.toList⟩, ⟨hpos, hdepth.symm, rfl⟩, rfl, hopen⟩

end OntologyPrep.Balance
