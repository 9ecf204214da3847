import OntologyPrep.Proofs.Text.Nesting
import OntologyPrep.Proofs.Text.Pairing

/-!
# The scanner and the check for balance

The scanner opens and closes comments and string literals where the check for balance does
(`Scanner.within_foldl`), and the parentheses among its tokens are the ones that the check counts
(`Scanner.parentheses_foldl`).

`Token.of_scan_ok` and `Token.of_scan_error` say this of a whole text: either it ends outside of
string literals, or some quote opens one that has no end.
-/

namespace OntologyPrep

/-- the number of bytes of some characters -/
def bytes (cs : List Char) : Nat := (String.ofList cs).utf8ByteSize

@[simp] theorem bytes_nil : bytes [] = 0 := rfl

theorem bytes_append (xs ys : List Char) : bytes (xs ++ ys) = bytes xs + bytes ys := by
  rw [bytes, String.ofList_append, String.utf8ByteSize_append, bytes, bytes]

@[simp] theorem bytes_cons (c : Char) (cs : List Char) :
    bytes (c :: cs) = c.utf8Size + bytes cs := by
  rw [← List.singleton_append, bytes_append, bytes, ← String.singleton_eq_ofList,
    String.utf8ByteSize_singleton]

/-- the token is not a word -/
def Token.isParenthesis : Token → Bool
  | .opening _ => true
  | .closing _ => true
  | .word _ _ => false

namespace Token

variable {tokens : List Token}

@[simp] theorem depth_parentheses (tokens : List Token) :
    depth (tokens.filter isParenthesis) = depth tokens := by
  induction tokens with
  | nil => rfl
  | cons t ts ih =>
    cases t with
    | opening start => rw [List.filter_cons_of_pos rfl, depth_cons, depth_cons, ih]
    | closing start => rw [List.filter_cons_of_pos rfl, depth_cons, depth_cons, ih]
    | word text start =>
      rw [List.filter_cons_of_neg (by simp [isParenthesis]), depth_cons, ih, lexeme_word,
        Lexeme.change, Int.zero_add]

theorem Nested.parentheses (h : Nested tokens) : Nested (tokens.filter isParenthesis) := by
  intro first hf
  obtain ⟨whole, hwhole, rfl⟩ := List.prefix_filter_iff.mp hf
  rw [depth_parentheses]
  exact h whole hwhole

theorem Paired.parentheses (h : Paired tokens) : Paired (tokens.filter isParenthesis) :=
  ⟨h.1.parentheses, by rw [depth_parentheses, h.2]⟩

end Token

/-! ## the parentheses of a text -/

namespace Balance.Within

/-- the token of a character that is a parenthesis outside of string literals and comments -/
def token (w : Within) (offset : Nat) (c : Char) : List Token :=
  if w = .code then
    if c = '(' then [.opening offset] else if c = ')' then [.closing offset] else []
  else []

/-- the parentheses outside of string literals and comments -/
def tokens (w : Within) (offset : Nat) : List Char → List Token
  | [] => []
  | c :: cs => w.token offset c ++ (w.next c).tokens (offset + c.utf8Size) cs

theorem token_cases (w : Within) (offset : Nat) (c : Char) : w.token offset c = [] ∨
    w = .code ∧ (c = '(' ∧ w.token offset c = [.opening offset] ∨
      c = ')' ∧ w.token offset c = [.closing offset]) := by
  rw [token]
  split_ifs with hw hopening hclosing
  · exact .inr ⟨hw, .inl ⟨hopening, rfl⟩⟩
  · exact .inr ⟨hw, .inr ⟨hclosing, rfl⟩⟩
  · exact .inl rfl
  · exact .inl rfl

theorem depth_token (w : Within) (offset : Nat) (c : Char) :
    Token.depth (w.token offset c) = w.change c := by
  rw [token, change]
  split_ifs <;> rfl

@[simp] theorem tokens_nil (w : Within) (offset : Nat) : w.tokens offset [] = [] := rfl

@[simp] theorem tokens_cons (w : Within) (offset : Nat) (c : Char) (cs : List Char) :
    w.tokens offset (c :: cs) =
      w.token offset c ++ (w.next c).tokens (offset + c.utf8Size) cs := rfl

theorem tokens_append (w : Within) (offset : Nat) (xs ys : List Char) :
    w.tokens offset (xs ++ ys) =
      w.tokens offset xs ++ (w.after xs).tokens (offset + bytes xs) ys := by
  induction xs generalizing w offset with
  | nil => simp
  | cons c cs ih => simp [ih, Nat.add_assoc]

theorem depth_tokens (w : Within) (offset : Nat) (cs : List Char) :
    Token.depth (w.tokens offset cs) = w.depth cs := by
  induction cs generalizing w offset with
  | nil => rfl
  | cons c cs ih => rw [tokens_cons, Token.depth_append, depth_token, ih, depth_cons]

/-- where tokens are nested, the depth of the text never falls below zero -/
theorem depth_nonneg_of_nested {w : Within} {offset : Nat} {cs first : List Char}
    (h : Token.Nested (w.tokens offset cs)) (hf : first <+: cs) : 0 ≤ w.depth first := by
  obtain ⟨others, rfl⟩ := hf
  rw [← depth_tokens w offset]
  rw [tokens_append] at h
  exact (Token.nested_append.mp h).1.depth_nonneg

/-- the place of a parenthesis in the text -/
theorem exists_of_tokens {w : Within} {offset : Nat} {cs : List Char} {xs ys : List Token}
    {t : Token} (h : w.tokens offset cs = xs ++ t :: ys) :
    ∃ before c after, cs = before ++ c :: after ∧ w.after before = .code ∧
      w.tokens offset before = xs ∧ Within.code.token (offset + bytes before) c = [t] ∧
      Within.code.tokens (offset + bytes before + c.utf8Size) after = ys := by
  induction cs generalizing w offset xs with
  | nil => simp at h
  | cons c cs ih =>
    rw [tokens_cons] at h
    rcases token_cases w offset c with hnone | ⟨rfl, hsome⟩
    · rw [hnone, List.nil_append] at h
      obtain ⟨before, d, after, rfl, hcode, hxs, ht, hys⟩ := ih h
      rw [Nat.add_assoc offset, ← bytes_cons] at ht hys
      exact ⟨c :: before, d, after, rfl, hcode, by rw [tokens_cons, hnone, hxs]; rfl, ht, hys⟩
    · have hnext : Within.code.next c = .code := by
        rcases hsome with ⟨rfl, -⟩ | ⟨rfl, -⟩ <;> rfl
      obtain ⟨t', ht'⟩ : ∃ t', Within.code.token offset c = [t'] := by
        rcases hsome with ⟨-, ht'⟩ | ⟨-, ht'⟩
        · exact ⟨_, ht'⟩
        · exact ⟨_, ht'⟩
      rw [ht', List.singleton_append, hnext] at h
      cases xs with
      | nil =>
        obtain ⟨rfl, rfl⟩ := List.cons.inj h
        exact ⟨[], c, cs, rfl, rfl, rfl, ht', rfl⟩
      | cons x xs =>
        obtain ⟨rfl, hcs⟩ := List.cons.inj h
        obtain ⟨before, d, after, rfl, hcode, hxs, ht, hys⟩ := ih hcs
        rw [Nat.add_assoc offset, ← bytes_cons] at ht hys
        refine ⟨c :: before, d, after, rfl, ?_, ?_, ht, hys⟩
        · rw [after_cons, hnext, hcode]
        · rw [tokens_cons, ht', hnext, hxs, List.singleton_append]

theorem token_eq_opening {offset start : Nat} {c : Char}
    (h : Within.code.token offset c = [.opening start]) : c = '(' ∧ start = offset := by
  rcases token_cases .code offset c with hnone | ⟨-, ⟨hc, ht⟩ | ⟨-, ht⟩⟩
  · rw [hnone] at h
    cases h
  · rw [ht] at h
    cases h
    exact ⟨hc, rfl⟩
  · rw [ht] at h
    cases h

theorem token_eq_closing {offset start : Nat} {c : Char}
    (h : Within.code.token offset c = [.closing start]) : c = ')' ∧ start = offset := by
  rcases token_cases .code offset c with hnone | ⟨-, ⟨-, ht⟩ | ⟨hc, ht⟩⟩
  · rw [hnone] at h
    cases h
  · rw [ht] at h
    cases h
  · rw [ht] at h
    cases h
    exact ⟨hc, rfl⟩

/-- only code ends a string literal -/
theorem after_of_never_code {w : Within} {cs : List Char} (hw : w = .quoted ∨ w = .escape)
    (h : ∀ first, first <+: cs → w.after first ≠ .code) :
    w.after cs = .quoted ∨ w.after cs = .escape := by
  induction cs generalizing w with
  | nil => exact hw
  | cons c cs ih =>
    obtain ⟨-, hcs⟩ := forall_prefix_cons.mp h
    refine ih ?_ hcs
    have hnext : w.next c ≠ .code := hcs [] List.nil_prefix
    rcases hw with rfl | rfl
    · rw [next] at hnext ⊢
      split_ifs at hnext ⊢ <;> simp_all
    · exact .inl rfl

end Balance.Within

/-! ## the scanner -/

open Balance

namespace Scanner

/-- what is open besides parentheses -/
def Mode.within : Mode → Within
  | .between | .word _ _ => .code
  | .comment => .comment
  | .quoted _ _ false => .quoted
  | .quoted _ _ true => .escape

variable {s : Scanner}

theorem within_separate (offset : Nat) (tokens : List Token) (c : Char) :
    (separate offset tokens c).1.within = Within.code.next c := by
  simp only [separate, Within.next]
  split_ifs <;> simp_all [Mode.within, isBlank]

theorem parentheses_separate (offset : Nat) (tokens : List Token) (c : Char) :
    (separate offset tokens c).2.filter Token.isParenthesis =
      Within.code.token offset c ++ tokens.filter Token.isParenthesis := by
  simp only [separate, Within.token]
  split_ifs <;> simp_all [isBlank, Token.isParenthesis, List.filter_cons]

theorem not_parenthesis_of_isWordChar {c : Char} (h : isWordChar c = true) :
    c ≠ '(' ∧ c ≠ ')' ∧ c ≠ ';' ∧ c ≠ '\x22' := by
  simp only [isWordChar, Bool.not_eq_true', Bool.or_eq_false_iff, decide_eq_false_iff_not] at h
  exact ⟨h.1.1.1.2, h.1.1.2, h.1.2, h.2⟩

theorem within_step (s : Scanner) (c : Char) :
    (s.step c).mode.within = s.mode.within.next c := by
  obtain ⟨mode, offset, tokens⟩ := s
  cases mode with
  | between => exact within_separate offset tokens c
  | comment =>
    simp only [step, absorb, Mode.within, Within.next]
    split_ifs <;> rfl
  | word start chars =>
    simp only [step, absorb]
    split_ifs with hword
    · obtain ⟨-, -, hsemicolon, hquote⟩ := not_parenthesis_of_isWordChar hword
      simp [Mode.within, Within.next, hsemicolon, hquote]
    · exact within_separate offset _ c
  | quoted start chars escaped =>
    cases escaped with
    | true => rfl
    | false =>
      simp only [step, absorb, Mode.within, Within.next]
      split_ifs <;> rfl

theorem parentheses_step (s : Scanner) (c : Char) :
    (s.step c).tokens.filter Token.isParenthesis =
      s.mode.within.token s.offset c ++ s.tokens.filter Token.isParenthesis := by
  obtain ⟨mode, offset, tokens⟩ := s
  cases mode with
  | between => exact parentheses_separate offset tokens c
  | comment => rfl
  | word start chars =>
    simp only [step, absorb]
    split_ifs with hword
    · obtain ⟨hopening, hclosing, -, -⟩ := not_parenthesis_of_isWordChar hword
      simp [Mode.within, Within.token, hopening, hclosing]
    · rw [parentheses_separate]
      rfl
  | quoted start chars escaped =>
    cases escaped with
    | true => rfl
    | false =>
      simp only [step, absorb]
      split_ifs <;> rfl

theorem within_foldl (s : Scanner) (cs : List Char) :
    (cs.foldl step s).mode.within = s.mode.within.after cs := by
  induction cs generalizing s with
  | nil => rfl
  | cons c cs ih => rw [List.foldl_cons, ih, within_step, Within.after_cons]

/-- the parentheses among the tokens are those of the text -/
theorem parentheses_foldl (s : Scanner) (cs : List Char) :
    (cs.foldl step s).tokens.reverse.filter Token.isParenthesis =
      s.tokens.reverse.filter Token.isParenthesis ++ s.mode.within.tokens s.offset cs := by
  induction cs generalizing s with
  | nil => simp
  | cons c cs ih =>
    have hsingle : (s.mode.within.token s.offset c).reverse = s.mode.within.token s.offset c := by
      rcases Within.token_cases s.mode.within s.offset c with h | ⟨-, ⟨-, h⟩ | ⟨-, h⟩⟩ <;> rw [h] <;> rfl
    rw [List.foldl_cons, ih, List.filter_reverse, parentheses_step, within_step,
      List.reverse_append, hsingle, ← List.filter_reverse, List.append_assoc, Within.tokens_cons]
    rfl

theorem quote_of_separate {offset start : Nat} {tokens : List Token} {c : Char}
    {chars : List Char} {escaped : Bool}
    (h : (separate offset tokens c).1 = .quoted start chars escaped) :
    c = '\x22' ∧ start = offset := by
  simp only [separate] at h
  split_ifs at h with _ _ _ _ hquote
  cases h
  exact ⟨hquote, rfl⟩

/-- a string literal was open before, or the character opens it -/
theorem quoted_of_step {s : Scanner} {c : Char} {start : Nat} {chars : List Char} {escaped : Bool}
    (h : (s.step c).mode = .quoted start chars escaped) :
    (∃ chars escaped, s.mode = .quoted start chars escaped) ∨
      s.mode.within = .code ∧ c = '\x22' ∧ start = s.offset := by
  obtain ⟨mode, offset, tokens⟩ := s
  cases mode with
  | between => exact .inr ⟨rfl, quote_of_separate h⟩
  | comment =>
    simp only [step, absorb] at h
    split_ifs at h
  | word start' chars' =>
    simp only [step, absorb] at h
    split_ifs at h
    exact .inr ⟨rfl, quote_of_separate h⟩
  | quoted start' chars' escaped' =>
    cases escaped' with
    | true =>
      cases h
      exact .inl ⟨_, _, rfl⟩
    | false =>
      simp only [step, absorb] at h
      split_ifs at h <;> cases h <;> exact .inl ⟨_, _, rfl⟩

/-- a string literal that is open at the end was open before, or some quote opens it -/
theorem exists_quote {s : Scanner} {cs : List Char} {start : Nat} {chars : List Char}
    {escaped : Bool} (h : (cs.foldl step s).mode = .quoted start chars escaped) :
    ((∃ chars escaped, s.mode = .quoted start chars escaped) ∧
      ∀ first, first <+: cs → s.mode.within.after first ≠ .code) ∨
    ∃ before after, cs = before ++ '\x22' :: after ∧ s.mode.within.after before = .code ∧
      start = s.offset + bytes before ∧
      ∀ first, first <+: after → Within.quoted.after first ≠ .code := by
  induction cs generalizing s with
  | nil =>
    refine .inl ⟨⟨chars, escaped, h⟩, fun first hf => ?_⟩
    rw [List.prefix_nil.mp hf, Within.after_nil, show s.mode = _ from h]
    cases escaped <;> nofun
  | cons c cs ih =>
    rcases ih h with ⟨⟨chars', escaped', hmode⟩, hopen⟩ | ⟨before, after, rfl, hcode, hstart, hopen⟩
    · rw [within_step] at hopen
      rcases quoted_of_step hmode with hquoted | ⟨hcode, rfl, rfl⟩
      · refine .inl ⟨hquoted, forall_prefix_cons.mpr ⟨?_, hopen⟩⟩
        obtain ⟨chars'', escaped'', hquoted⟩ := hquoted
        rw [Within.after_nil, hquoted]
        cases escaped'' <;> nofun
      · rw [hcode] at hopen
        exact .inr ⟨[], cs, rfl, hcode, rfl, hopen⟩
    · rw [within_step] at hcode
      refine .inr ⟨c :: before, after, rfl, hcode, ?_, hopen⟩
      rw [hstart, bytes_cons, ← Nat.add_assoc]
      rfl

end Scanner

namespace Token

variable {text : String}

/-- the parentheses among the tokens of a text, which ends outside of string literals -/
theorem of_scan_ok {tokens : List Token} (h : scan text = .ok tokens) :
    tokens.filter isParenthesis = Within.code.tokens 0 text.toList ∧
      (Within.code.after text.toList = .code ∨ Within.code.after text.toList = .comment) := by
  have hwithin := Scanner.within_foldl .start text.toList
  have hparentheses := Scanner.parentheses_foldl .start text.toList
  rw [scan] at h
  generalize text.toList.foldl Scanner.step .start = s at h hwithin hparentheses
  obtain ⟨mode, offset, found⟩ := s
  cases mode with
  | between =>
    cases h
    exact ⟨hparentheses, .inl hwithin.symm⟩
  | comment =>
    cases h
    exact ⟨hparentheses, .inr hwithin.symm⟩
  | word start chars =>
    cases h
    refine ⟨?_, .inl hwithin.symm⟩
    rw [List.reverse_cons, List.filter_append, hparentheses]
    exact List.append_nil _
  | quoted start chars escaped => cases h

/-- the text has a string literal without an end -/
theorem of_scan_error {start : Nat} (h : scan text = .error start) :
    ∃ before after, text.toList = before ++ '\x22' :: after ∧ Within.code.after before = .code ∧
      start = bytes before ∧ ∀ first, first <+: after → Within.quoted.after first ≠ .code := by
  rw [scan, Scanner.finish] at h
  split at h
  · cases h
  · cases h
  · cases h
  · rename_i start' chars escaped hmode
    cases h
    rcases Scanner.exists_quote hmode with ⟨⟨_, _, hstart⟩, -⟩ | ⟨before, after, hsplit, hcode, hsize, hopen⟩
    · cases hstart
    · exact ⟨before, after, hsplit, hcode, by rw [hsize]; exact Nat.zero_add _, hopen⟩

end Token

end OntologyPrep
