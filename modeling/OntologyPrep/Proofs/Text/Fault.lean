import OntologyPrep.Proofs.Text.Scanning

/-!
# Balanced texts are the ones that can be read

`Balance.Fault` says where a text is at fault: at the opening quote of a string literal without an
end; else at the first closing parenthesis at depth zero; else at the last opening parenthesis that
is never closed.

`Term.readAll_iff_isBalanced` says that exactly the balanced texts can be read, and that the error
for any other text starts at its fault.
-/

namespace OntologyPrep

open Balance

/-! ## where a text is at fault -/

namespace Balance

/-- some characters up to the opening quote of a string literal that has no end -/
def OpensString (text before : List Char) : Prop :=
  ∃ after, text = before ++ '\x22' :: after ∧ Within.code.after before = .code ∧
    ∀ first, first <+: after → Within.quoted.after first ≠ .code

/-- some characters up to the first closing parenthesis at depth zero -/
def ClosesNothing (text before : List Char) : Prop :=
  ∃ after, text = before ++ ')' :: after ∧ Within.code.after before = .code ∧
    (∀ first, first <+: before → 0 ≤ Within.code.depth first) ∧ Within.code.depth before = 0

/-- some characters up to an opening parenthesis that is never closed -/
def StaysOpen (text before : List Char) : Prop :=
  ∃ after, text = before ++ '(' :: after ∧ Within.code.after before = .code ∧
    ∀ first, first <+: after → 0 ≤ Within.code.depth first

/-- the characters before the fault of a text -/
inductive Fault (text : List Char) : List Char → Prop where
  | quote {before : List Char} : OpensString text before → Fault text before
  | closing {before : List Char} : (¬∃ other, OpensString text other) →
      ClosesNothing text before → Fault text before
  | opening {before : List Char} : (¬∃ other, OpensString text other) →
      (¬∃ other, ClosesNothing text other) → StaysOpen text before →
      (∀ other, StaysOpen text other → other.length ≤ before.length) → Fault text before

variable {cs before : List Char}

theorem after_of_opensString (h : OpensString cs before) :
    Within.code.after cs = .quoted ∨ Within.code.after cs = .escape := by
  obtain ⟨after, rfl, hcode, hopen⟩ := h
  rw [Within.after_append, hcode, Within.after_cons]
  exact Within.after_of_never_code (.inl rfl) hopen

theorem depth_of_closesNothing (h : ClosesNothing cs before) :
    ∃ first, first <+: cs ∧ Within.code.depth first < 0 := by
  obtain ⟨after, rfl, hcode, -, hdepth⟩ := h
  refine ⟨before ++ [')'], ⟨after, by simp⟩, ?_⟩
  rw [Within.depth_append, hcode, hdepth]
  decide

/-- where nothing is open at the end, a later list is closed -/
theorem length_le_of_staysOpen {after other : List Char} (hcode : Within.code.after before = .code)
    (hopen : ∀ first, first <+: after → 0 ≤ Within.code.depth first)
    (hdepth : Within.code.depth after = 0) (h : StaysOpen (before ++ '(' :: after) other) :
    other.length ≤ before.length := by
  obtain ⟨after', heq, hcode', hopen'⟩ := h
  by_contra hlater
  rcases List.append_eq_append_iff.mp heq with ⟨mid, rfl, hmid⟩ | ⟨_, rfl, -⟩
  · cases mid with
    | nil => simp at hlater
    | cons c mid =>
      obtain ⟨rfl, rfl⟩ : '(' = c ∧ after = mid ++ '(' :: after' := List.cons.inj hmid
      have hcodeMid : Within.code.after mid = .code := by
        rwa [Within.after_append, hcode, Within.after_cons] at hcode'
      have hdepthMid : 0 ≤ Within.code.depth mid := hopen mid (List.prefix_append _ _)
      have hdepthLast : 0 ≤ Within.code.depth after' := hopen' after' (List.prefix_refl _)
      have hchange : Within.code.change '(' = 1 := rfl
      have hnext : Within.code.next '(' = .code := rfl
      rw [Within.depth_append, hcodeMid, Within.depth_cons, hchange, hnext] at hdepth
      omega
  · simp at hlater

theorem not_isBalanced_of_depth {text : String} {first : List Char} (hf : first <+: text.toList)
    (h : Within.code.depth first < 0) : isBalanced text = false := by
  rw [← Bool.not_eq_true, isBalanced_iff]
  intro hbalanced
  have := hbalanced.1 first hf
  omega

end Balance

namespace Term

variable {text : String} {tokens : List Token}

/-- a closing parenthesis that the reader refuses is met at depth zero -/
theorem closesNothing_of_tokens {before after : List Token} {start : Nat}
    (htokens : Within.code.tokens 0 text.toList = before ++ .closing start :: after)
    (hbefore : Token.Paired before) :
    ∃ cs, ClosesNothing text.toList cs ∧ start = bytes cs := by
  obtain ⟨cs, c, others, hsplit, hcode, hcs, htoken, -⟩ := Within.exists_of_tokens htokens
  obtain ⟨rfl, hstart⟩ := Within.token_eq_closing htoken
  rw [← hcs] at hbefore
  refine ⟨cs, ⟨others, hsplit, hcode, ?_, ?_⟩, by rw [hstart, Nat.zero_add]⟩
  · exact fun first hf => Within.depth_nonneg_of_nested hbefore.1 hf
  · rw [← Within.depth_tokens .code 0, hbefore.2]

/-- the list that the reader names is the last one that stays open -/
theorem staysOpen_of_tokens {start : Nat}
    (h : Token.Unclosed start (Within.code.tokens 0 text.toList)) :
    ∃ cs, StaysOpen text.toList cs ∧ (∀ other, StaysOpen text.toList other →
      other.length ≤ cs.length) ∧ start = bytes cs := by
  obtain ⟨before, after, htokens, -, hafter⟩ := h
  obtain ⟨cs, c, others, hsplit, hcode, -, htoken, hothers⟩ := Within.exists_of_tokens htokens
  obtain ⟨rfl, hstart⟩ := Within.token_eq_opening htoken
  rw [← hothers] at hafter
  have hopen : ∀ first, first <+: others → 0 ≤ Within.code.depth first :=
    fun first hf => Within.depth_nonneg_of_nested hafter.1 hf
  have hdepth : Within.code.depth others = 0 := by rw [← Within.depth_tokens .code, hafter.2]
  refine ⟨cs, ⟨others, hsplit, hcode, hopen⟩, fun other hother => ?_, by rw [hstart, Nat.zero_add]⟩
  rw [hsplit] at hother
  exact length_le_of_staysOpen hcode hopen hdepth hother

/-- the tokens of an unclosed list are nested, and some list is open at their end -/
theorem depth_of_unclosed {start : Nat} (h : Token.Unclosed start tokens) :
    Token.Nested tokens ∧ 0 < Token.depth tokens := by
  obtain ⟨before, after, rfl, hbefore, hafter⟩ := h
  refine ⟨hbefore.append ((Token.nested_opening start).append hafter.1), ?_⟩
  have := hbefore.depth_nonneg
  rw [Token.depth_append, Token.depth_opening, hafter.2]
  omega

theorem unclosed_parentheses {start : Nat} (h : Token.Unclosed start tokens) :
    Token.Unclosed start (tokens.filter Token.isParenthesis) := by
  obtain ⟨before, after, rfl, hbefore, hafter⟩ := h
  refine ⟨_, _, ?_, hbefore.parentheses, hafter.parentheses⟩
  rw [List.filter_append, List.filter_cons_of_pos rfl]

/-- a text whose tokens the reader refuses is not balanced, and the error starts at its fault -/
theorem fault_of_terms {e : SyntaxError} (hscan : Token.scan text = .ok tokens)
    (h : Reader.terms [] tokens = .error e) : isBalanced text = false ∧
      e.message ≠ "unexpected EOF" ∧
      ∃ cs, Fault text.toList cs ∧ (e.bounds text).1 = bytes cs := by
  obtain ⟨hparentheses, hwithin⟩ := Token.of_scan_ok hscan
  have hstring : ¬∃ other, OpensString text.toList other := by
    rintro ⟨other, hother⟩
    rcases hwithin with hw | hw <;> rcases after_of_opensString hother with ho | ho <;>
      rw [hw] at ho <;> cases ho
  rcases Reader.terms_error h with ⟨before, start, after, rfl, rfl, hbefore⟩ | ⟨start, rfl, hopen⟩
  · rw [List.filter_append, List.filter_cons_of_pos rfl] at hparentheses
    obtain ⟨cs, hcs, hstart⟩ := closesNothing_of_tokens hparentheses.symm hbefore.parentheses
    obtain ⟨first, hf, hneg⟩ := depth_of_closesNothing hcs
    exact ⟨not_isBalanced_of_depth hf hneg, by simp [SyntaxError.message],
      cs, .closing hstring hcs, hstart⟩
  · have hunclosed := unclosed_parentheses hopen
    rw [hparentheses] at hunclosed
    obtain ⟨hnested, hdepth⟩ := depth_of_unclosed hunclosed
    obtain ⟨cs, hcs, hlast, hstart⟩ := staysOpen_of_tokens hunclosed
    refine ⟨?_, by simp [SyntaxError.message], cs, .opening hstring ?_ hcs hlast, hstart⟩
    · rw [← Bool.not_eq_true, isBalanced_iff]
      intro hbalanced
      rw [Within.depth_tokens] at hdepth
      omega
    · rintro ⟨other, hother⟩
      obtain ⟨first, hf, hneg⟩ := depth_of_closesNothing hother
      have := Within.depth_nonneg_of_nested hnested hf
      omega

/-- a text with a string literal that has no end is not balanced, and the error starts there -/
theorem fault_of_scan {start : Nat} (h : Token.scan text = .error start) :
    isBalanced text = false ∧ ∃ cs, Fault text.toList cs ∧ start = bytes cs := by
  obtain ⟨before, after, hsplit, hcode, hstart, hopen⟩ := Token.of_scan_error h
  have hopens : OpensString text.toList before := ⟨after, hsplit, hcode, hopen⟩
  refine ⟨?_, before, .quote hopens, hstart⟩
  rw [← Bool.not_eq_true, isBalanced_iff]
  rintro ⟨-, -, hclosed⟩
  rcases hclosed with hc | hc <;> rcases after_of_opensString hopens with ho | ho <;>
    rw [hc] at ho <;> cases ho

theorem isBalanced_of_readAll {ts : List Term} (h : readAll text = .ok ts) :
    isBalanced text = true := by
  obtain ⟨tokens, hscan, hlexemes⟩ := readAll_eq_ok_iff.mp h
  obtain ⟨hparentheses, hwithin⟩ := Token.of_scan_ok hscan
  have hpaired := (paired_of_flatMap_lexemes ts hlexemes).parentheses
  rw [hparentheses] at hpaired
  refine (isBalanced_iff text).mpr ⟨fun first hf => ?_, ?_, hwithin⟩
  · exact Within.depth_nonneg_of_nested hpaired.1 hf
  · rw [← Within.depth_tokens .code 0, hpaired.2]

/-- exactly the balanced texts can be read, and the error for any other starts at its fault -/
theorem readAll_iff_isBalanced (text : String) :
    ((∃ ts, readAll text = .ok ts) ↔ isBalanced text = true) ∧
    ∀ e, readAll text = .error e → (e.toDiagnostic text).message ≠ "unexpected EOF" ∧
      (e.toDiagnostic text).code = "E-SYNTAX" ∧
      ∃ before span, Fault text.toList before ∧ (e.toDiagnostic text).span = some span ∧
        span.start = (String.ofList before).utf8ByteSize := by
  have hfault : ∀ e, readAll text = .error e → isBalanced text = false ∧
      e.message ≠ "unexpected EOF" ∧
      ∃ before, Fault text.toList before ∧ (e.bounds text).1 = bytes before := by
    intro e h
    rw [readAll, readLocated] at h
    cases hscan : Token.scan text with
    | error start =>
      rw [hscan] at h
      cases h
      obtain ⟨hbalanced, before, hbefore, hstart⟩ := fault_of_scan hscan
      exact ⟨hbalanced, by simp [SyntaxError.message], before, hbefore, hstart⟩
    | ok tokens =>
      simp only [hscan] at h
      cases hterms : Reader.terms [] tokens with
      | ok found =>
        rw [hterms] at h
        cases h
      | error e' =>
        rw [hterms] at h
        cases h
        exact fault_of_terms hscan hterms
  have hbalanced_of : (∃ ts, readAll text = .ok ts) → isBalanced text = true := by
    intro h
    obtain ⟨ts, h⟩ := h
    exact isBalanced_of_readAll h
  refine ⟨⟨hbalanced_of, fun hbalanced => ?_⟩, fun e h => ?_⟩
  · cases h : readAll text with
    | ok ts => exact ⟨ts, rfl⟩
    | error e =>
      rw [(hfault e h).1] at hbalanced
      cases hbalanced
  · obtain ⟨-, hmessage, before, hbefore, hstart⟩ := hfault e h
    exact ⟨hmessage, rfl, before, _, hbefore, rfl, hstart⟩

/-- the closing parenthesis in the string literal and the one in the comment do not count -/
theorem readAll_iff_isBalanced_unclosed :
    readAll "(a (b \")\") ; )" = .error (.unclosedList 0) ∧
      ∃ before span, Fault "(a (b \")\") ; )".toList before ∧
        (SyntaxError.toDiagnostic "(a (b \")\") ; )" (.unclosedList 0)).span = some span ∧
        span.start = (String.ofList before).utf8ByteSize := by
  have h : readAll "(a (b \")\") ; )" = .error (.unclosedList 0) := by cbv
  exact ⟨h, ((readAll_iff_isBalanced _).2 _ h).2.2⟩

end Term

end OntologyPrep
