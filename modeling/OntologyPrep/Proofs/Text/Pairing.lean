import Mathlib.Algebra.BigOperators.Group.List.Basic
import Mathlib.Algebra.Ring.Int.Defs
import Mathlib.Data.List.Infix
import OntologyPrep.Proofs.Text.Grammar

/-!
# Tokens in pairs

`Token.depth` counts the opening parentheses of some tokens less the closing ones.  Tokens are nested
if no first part of them has a depth below zero, and paired if besides the depth comes back to zero.

The tokens that spell a term are paired (`Term.paired_of_lexemes`).  `Reader.terms_error` says where
the reader stops otherwise: at the first closing parenthesis that has no partner, or at an opening one behind which
all tokens are paired.
-/

namespace OntologyPrep

/-- what a lexeme adds to the number of open parentheses -/
def Lexeme.change : Lexeme → Int
  | .opening => 1
  | .closing => -1
  | .word _ => 0

namespace Token

/-- opening parentheses less closing ones -/
def depth (tokens : List Token) : Int := (tokens.map fun t => t.lexeme.change).sum

/-- no closing parenthesis comes before its partner -/
def Nested (tokens : List Token) : Prop := ∀ first, first <+: tokens → 0 ≤ depth first

/-- every parenthesis has its partner -/
def Paired (tokens : List Token) : Prop := Nested tokens ∧ depth tokens = 0

/-- the list that starts at an offset is open at the end, and the lists behind that are not -/
def Unclosed (start : Nat) (tokens : List Token) : Prop :=
  ∃ before after, tokens = before ++ .opening start :: after ∧ Nested before ∧ Paired after

variable {tokens xs ys : List Token} {start stop : Nat}

@[simp] theorem depth_nil : depth [] = 0 := rfl

@[simp] theorem depth_cons (t : Token) (ts : List Token) :
    depth (t :: ts) = t.lexeme.change + depth ts := by
  rw [depth, List.map_cons, List.sum_cons, depth]

@[simp] theorem depth_append (xs ys : List Token) : depth (xs ++ ys) = depth xs + depth ys := by
  rw [depth, List.map_append, List.sum_append, depth, depth]

theorem depth_opening (ts : List Token) : depth (.opening start :: ts) = 1 + depth ts := by
  rw [depth_cons, lexeme_opening, Lexeme.change]

theorem depth_closing (ts : List Token) : depth (.closing start :: ts) = -1 + depth ts := by
  rw [depth_cons, lexeme_closing, Lexeme.change]

/-! ## nested and paired parts -/

theorem nested_append : Nested (xs ++ ys) ↔
    Nested xs ∧ ∀ first, first <+: ys → 0 ≤ depth xs + depth first := by
  constructor
  · intro h
    refine ⟨fun first hf => h first (hf.trans (List.prefix_append xs ys)), fun first hf => ?_⟩
    rw [← depth_append]
    exact h (xs ++ first) ((List.prefix_append_right_inj xs).mpr hf)
  · rintro ⟨hx, hy⟩ first hf
    rcases List.prefix_or_prefix_of_prefix hf (List.prefix_append xs ys) with hfirst | ⟨others, rfl⟩
    · exact hx first hfirst
    · rw [depth_append]
      exact hy others ((List.prefix_append_right_inj xs).mp hf)

theorem nested_nil : Nested [] := by
  intro first hf
  rw [List.prefix_nil.mp hf]
  exact Int.le_refl 0

theorem paired_nil : Paired [] := ⟨nested_nil, depth_nil⟩

theorem Nested.depth_nonneg (h : Nested tokens) : 0 ≤ depth tokens := h tokens (List.prefix_refl _)

theorem Nested.append (hx : Nested xs) (hy : Nested ys) : Nested (xs ++ ys) :=
  nested_append.mpr ⟨hx, fun first hf => Int.add_nonneg hx.depth_nonneg (hy first hf)⟩

/-- paired tokens may stand anywhere -/
theorem Nested.insert (h : Nested (xs ++ ys)) (ht : Paired tokens) : Nested (xs ++ (tokens ++ ys)) := by
  obtain ⟨hx, hy⟩ := nested_append.mp h
  have hdepth : depth (xs ++ tokens) = depth xs := by rw [depth_append, ht.2, Int.add_zero]
  rw [← List.append_assoc, nested_append, hdepth]
  exact ⟨hx.append ht.1, hy⟩

theorem Paired.append (hx : Paired xs) (hy : Paired ys) : Paired (xs ++ ys) :=
  ⟨hx.1.append hy.1, by rw [depth_append, hx.2, hy.2, Int.add_zero]⟩

theorem nested_singleton {t : Token} (h : 0 ≤ t.lexeme.change) : Nested [t] := by
  intro first hf
  rcases List.prefix_cons_iff.mp hf with rfl | ⟨tail, rfl, htail⟩
  · exact Int.le_refl 0
  · rw [List.prefix_nil.mp htail, depth_cons, depth_nil, Int.add_zero]
    exact h

theorem nested_opening (start : Nat) : Nested [.opening start] :=
  nested_singleton (Int.zero_le_ofNat 1)

theorem paired_word {text : String} : Paired [.word text start] :=
  ⟨nested_singleton (by simp [Lexeme.change]), by simp [Lexeme.change]⟩

theorem Paired.wrap (h : Paired tokens) :
    Paired (.opening start :: (tokens ++ [.closing stop])) := by
  have hopen : Nested (.opening start :: tokens) := (nested_opening start).append h.1
  have hdepth : depth (.opening start :: tokens) = 1 := by rw [depth_opening, h.2, Int.add_zero]
  refine ⟨?_, ?_⟩
  · rw [← List.cons_append, nested_append, hdepth]
    refine ⟨hopen, fun first hf => ?_⟩
    rcases List.prefix_cons_iff.mp hf with rfl | ⟨tail, rfl, htail⟩
    · rw [depth_nil]
      omega
    · rw [List.prefix_nil.mp htail, depth_closing, depth_nil]
      omega
  · rw [← List.cons_append, depth_append, hdepth, depth_closing, depth_nil]
    omega

theorem Unclosed.append (hx : Nested xs) (h : Unclosed start tokens) :
    Unclosed start (xs ++ tokens) := by
  obtain ⟨before, after, rfl, hbefore, hafter⟩ := h
  exact ⟨xs ++ before, after, by rw [List.append_assoc], hx.append hbefore, hafter⟩

theorem Unclosed.cons (h : Paired tokens) : Unclosed start (.opening start :: tokens) :=
  ⟨[], tokens, rfl, nested_nil, h⟩

/-- paired tokens may stand behind the first opening parenthesis -/
theorem Unclosed.insert (hx : Paired xs) (h : Unclosed start (.opening stop :: tokens)) :
    Unclosed start (.opening stop :: (xs ++ tokens)) := by
  obtain ⟨before, after, heq, hbefore, hafter⟩ := h
  cases before with
  | nil =>
    obtain ⟨hstart, rfl⟩ := List.cons.inj heq
    exact ⟨[], xs ++ tokens, by rw [hstart, List.nil_append], nested_nil, hx.append hafter⟩
  | cons t before =>
    obtain ⟨rfl, rfl⟩ := List.cons.inj heq
    have hinsert : Nested ([.opening stop] ++ (xs ++ before)) := Nested.insert hbefore hx
    exact ⟨.opening stop :: (xs ++ before), after, by simp, hinsert, hafter⟩

end Token

/-! ## the reader -/

namespace Term

mutual

/-- what spells a term is paired -/
theorem paired_of_lexemes : ∀ (t : Term) {tokens : List Token},
    tokens.map Token.lexeme = t.lexemes → Token.Paired tokens
  | .atom a, tokens, h => by
    obtain ⟨start, rfl⟩ := Reader.exists_of_lexemes_atom h
    exact Token.paired_word
  | .list items, tokens, h => by
    obtain ⟨start, inside, stop, rfl, hinside⟩ := Reader.exists_of_lexemes_list h
    exact (paired_of_flatMap_lexemes items hinside).wrap

theorem paired_of_flatMap_lexemes : ∀ (ts : List Term) {tokens : List Token},
    tokens.map Token.lexeme = ts.flatMap lexemes → Token.Paired tokens
  | [], tokens, h => by
    rw [List.flatMap_nil, List.map_eq_nil_iff] at h
    rw [h]
    exact Token.paired_nil
  | t :: ts, tokens, h => by
    obtain ⟨first, others, rfl, hfirst, hothers⟩ := List.map_eq_append_iff.mp h
    exact (paired_of_lexemes t hfirst).append (paired_of_flatMap_lexemes ts hothers)

end

end Term

namespace Reader

open Token

variable {tokens : List Token} {start : Nat}

/-- a term that is not complete is named by the innermost list that stays open -/
def StopsTerm (tokens : List Token) : Prop :=
  ∀ t ts e, tokens = t :: ts → t.isClosing = false → term tokens = .error e →
    ∃ start, e = .unclosedList start ∧ Unclosed start tokens

/-- a list that is not complete is named by the innermost list that stays open -/
def StopsElements (bound start : Nat) (items : List Term) (tokens : List Token)
    (h : tokens.length < bound) : Prop :=
  ∀ e, elements start items tokens h = .error e →
    ∃ start', e = .unclosedList start' ∧ Unclosed start' (.opening start :: tokens)

theorem stopsBoth : (∀ tokens, StopsTerm tokens) ∧
    ∀ bound start items tokens h, StopsElements bound start items tokens h := by
  apply term.mutual_induct StopsTerm StopsElements
  case case1 =>
    intro t ts e htokens
    cases htokens
  case case2 =>
    intro text start tokens t ts e _ _ h
    rw [term_word] at h
    cases h
  case case3 =>
    intro start tail t ts e htokens hclosing
    cases htokens
    cases hclosing
  case case4 =>
    intro start tokens items rest helements ih t ts e _ _ h
    rw [term, helements] at h
    cases h
  case case5 =>
    intro start tokens e helements ih t ts e' _ _ h
    rw [term, helements] at h
    cases h
    exact ih e helements
  case case6 =>
    intro bound start items h _ e he
    rw [elements] at he
    cases he
    exact ⟨start, rfl, .cons paired_nil⟩
  case case7 =>
    intro bound start items t tokens h hclosing _ e he
    rw [elements, if_pos hclosing] at he
    cases he
  case case8 =>
    intro bound start items t tokens h hclosing found rest hterm _ _ ih e he
    rw [elements, if_neg hclosing, hterm] at he
    obtain ⟨first, htokens, hfirst⟩ := term_ok hterm
    obtain ⟨start', rfl, hopen⟩ := ih e he
    rw [htokens]
    exact ⟨start', rfl, .insert (found.term.paired_of_lexemes hfirst) hopen⟩
  case case9 =>
    intro bound start items t tokens h hclosing e hterm _ ih e' he
    rw [elements, if_neg hclosing, hterm] at he
    cases he
    obtain ⟨start', rfl, hopen⟩ := ih t tokens e rfl (eq_false_of_ne_true hclosing) hterm
    exact ⟨start', rfl, .append (nested_opening start) hopen⟩

/-- where the reader stops: at the first closing parenthesis without a partner, or at the last
opening one -/
theorem terms_error {found : List Located} {e : SyntaxError} (h : terms found tokens = .error e) :
    (∃ before start after, e = .unexpectedClosing start ∧
      tokens = before ++ .closing start :: after ∧ Paired before) ∨
    ∃ start, e = .unclosedList start ∧ Unclosed start tokens := by
  induction found, tokens using terms.induct with
  | case1 found =>
    rw [terms] at h
    cases h
  | case2 found t tokens next rest hterm ih =>
    rw [terms, hterm] at h
    obtain ⟨first, htokens, hfirst⟩ := term_ok hterm
    have hpaired := next.term.paired_of_lexemes hfirst
    rw [htokens]
    rcases ih h with ⟨before, start, after, rfl, hrest, hbefore⟩ | ⟨start, rfl, hopen⟩
    · refine .inl ⟨first ++ before, start, after, rfl, ?_, hpaired.append hbefore⟩
      rw [hrest, List.append_assoc]
    · exact .inr ⟨start, rfl, .append hpaired.1 hopen⟩
  | case3 found t tokens e' hterm =>
    rw [terms, hterm] at h
    cases h
    cases t with
    | closing start =>
      rw [term_closing] at hterm
      cases hterm
      exact .inl ⟨[], start, tokens, rfl, rfl, paired_nil⟩
    | opening start => exact .inr (stopsBoth.1 _ _ _ e rfl rfl hterm)
    | word text start => exact .inr (stopsBoth.1 _ _ _ e rfl rfl hterm)

end Reader

end OntologyPrep
