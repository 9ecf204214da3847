import OntologyPrep.Proofs.Text.Grammar
import OntologyPrep.Term.Variables

/-!
# Readable atoms

An atom is readable if it is a word, a string of characters none of which ends a word, or a string
literal, a quote and then characters up to the first quote that no backslash protects.

These are the atoms that a text can have: every atom of a text is readable (`Term.readable_of_readAll`),
and between two other tokens the scanner finds a readable atom as it is spelled (`Scanner.reads_atom`).
-/

namespace OntologyPrep

/-- the rest of a string literal: the quote that ends it comes last -/
inductive EndsLiteral : List Char → Prop where
  | quote : EndsLiteral ['\x22']
  | plain {c : Char} {cs : List Char} :
      c ≠ '\\' → c ≠ '\x22' → EndsLiteral cs → EndsLiteral (c :: cs)
  | escaped {c : Char} {cs : List Char} : EndsLiteral cs → EndsLiteral ('\\' :: c :: cs)

namespace Name

/-- characters that go on with a word, at least one -/
def IsWord (a : String) : Prop :=
  a.toList ≠ [] ∧ ∀ c ∈ a.toList, Scanner.isWordChar c = true

/-- a string literal with its quotes -/
def IsLiteral (a : String) : Prop := ∃ cs, a.toList = '\x22' :: cs ∧ EndsLiteral cs

/-- a word or a string literal -/
def IsReadable (a : String) : Prop := IsWord a ∨ IsLiteral a

end Name

/-- every atom is readable -/
def Term.Readable (t : Term) : Prop := ∀ a ∈ t.atoms, Name.IsReadable a

theorem Term.readable_atom {a : String} : (atom a).Readable ↔ Name.IsReadable a := by
  rw [Readable, atoms_atom, List.forall_mem_singleton]

theorem Term.readable_list {items : List Term} :
    (list items).Readable ↔ ∀ t ∈ items, t.Readable := by
  simp only [Readable, atoms_list, List.forall_mem_flatMap]

theorem Term.mem_lexemes (t : Term) (a : String) : .word a ∈ t.lexemes ↔ a ∈ t.atoms := by
  match t with
  | .atom b => simp
  | .list items =>
    have hitems : .word a ∈ items.flatMap lexemes ↔ a ∈ items.flatMap atoms := by
      rw [List.mem_flatMap, List.mem_flatMap]
      exact exists_congr fun x => and_congr_right fun hx => mem_lexemes x a
    rw [lexemes_list, atoms_list, List.mem_cons, List.mem_append, List.mem_singleton, hitems]
    simp

theorem Term.mem_flatMap_lexemes (ts : List Term) (a : String) :
    .word a ∈ ts.flatMap lexemes ↔ a ∈ ts.flatMap atoms := by
  rw [List.mem_flatMap, List.mem_flatMap]
  exact exists_congr fun x => and_congr_right fun _ => mem_lexemes x a

namespace Scanner

variable {s : Scanner} {c : Char} {cs : List Char}

/-! ## what the scanner finds is readable -/

/-- what has been read of a word or a literal can become one -/
def Mode.Sound : Mode → Prop
  | .between => True
  | .comment => True
  | .word _ chars => Name.IsWord (spelling chars)
  | .quoted _ chars false => ∀ cs, EndsLiteral cs → Name.IsLiteral (spelling (cs.reverse ++ chars))
  | .quoted _ chars true =>
    ∀ c cs, EndsLiteral cs → Name.IsLiteral (spelling (cs.reverse ++ c :: chars))

/-- all words are readable -/
def AllReadable (tokens : List Token) : Prop :=
  ∀ text start, .word text start ∈ tokens → Name.IsReadable text

theorem allReadable_cons_word {text : String} {start : Nat} {tokens : List Token}
    (htext : Name.IsReadable text) (h : AllReadable tokens) :
    AllReadable (.word text start :: tokens) := by
  intro text' start' hmem
  rcases List.mem_cons.mp hmem with heq | hmem
  · cases heq
    exact htext
  · exact h text' start' hmem

@[simp] theorem toList_spelling (chars : List Char) : (spelling chars).toList = chars.reverse := by
  rw [spelling, String.toList_ofList]

theorem sound_separate {offset : Nat} {tokens : List Token} (h : AllReadable tokens) (c : Char) :
    (separate offset tokens c).1.Sound ∧ AllReadable (separate offset tokens c).2 := by
  have hparenthesis : ∀ t : Token, (∀ text start, t ≠ .word text start) →
      AllReadable (t :: tokens) := by
    intro t ht text start hmem
    rcases List.mem_cons.mp hmem with rfl | hmem
    · exact absurd rfl (ht text start)
    · exact h text start hmem
  rw [separate]
  split_ifs with hblank hsemicolon hopening hclosing hquote
  · exact ⟨trivial, h⟩
  · exact ⟨trivial, h⟩
  · exact ⟨trivial, hparenthesis _ nofun⟩
  · exact ⟨trivial, hparenthesis _ nofun⟩
  · refine ⟨fun cs hcs => ⟨cs, ?_, hcs⟩, h⟩
    simp [hquote]
  · refine ⟨⟨by simp, fun d hd => ?_⟩, h⟩
    rw [toList_spelling, List.reverse_singleton, List.mem_singleton] at hd
    simp [isWordChar, hd, hblank, hsemicolon, hopening, hclosing, hquote]

theorem sound_step (h : s.mode.Sound ∧ AllReadable s.tokens) (c : Char) :
    (s.step c).mode.Sound ∧ AllReadable (s.step c).tokens := by
  obtain ⟨mode, offset, tokens⟩ := s
  obtain ⟨hmode, htokens⟩ := h
  cases mode with
  | between => exact sound_separate htokens c
  | comment =>
    simp only [step, absorb]
    split_ifs
    · exact ⟨trivial, htokens⟩
    · exact ⟨trivial, htokens⟩
  | word start chars =>
    simp only [step, absorb]
    split_ifs with hword
    · refine ⟨⟨by simp, fun d hd => ?_⟩, htokens⟩
      rw [toList_spelling, List.reverse_cons, List.mem_append, List.mem_singleton] at hd
      rcases hd with hd | rfl
      · exact hmode.2 d (by rwa [toList_spelling])
      · exact hword
    · exact sound_separate (allReadable_cons_word (.inl hmode) htokens) c
  | quoted start chars escaped =>
    cases escaped with
    | true => exact ⟨fun cs hcs => hmode c cs hcs, htokens⟩
    | false =>
      simp only [step, absorb]
      split_ifs with hbackslash hquote
      · refine ⟨fun d cs hcs => ?_, htokens⟩
        have := hmode ('\\' :: d :: cs) (.escaped hcs)
        rw [hbackslash]
        simpa using this
      · refine ⟨trivial, allReadable_cons_word (.inr ?_) htokens⟩
        have := hmode ['\x22'] .quote
        rw [hquote]
        simpa using this
      · refine ⟨fun cs hcs => ?_, htokens⟩
        have := hmode (c :: cs) (.plain hbackslash hquote hcs)
        simpa using this

theorem sound_foldl (h : s.mode.Sound ∧ AllReadable s.tokens) (cs : List Char) :
    (cs.foldl step s).mode.Sound ∧ AllReadable (cs.foldl step s).tokens := by
  induction cs generalizing s with
  | nil => exact h
  | cons c cs ih => exact ih (sound_step h c)

theorem allReadable_scan {text : String} {tokens : List Token}
    (h : Token.scan text = .ok tokens) : AllReadable tokens := by
  have hnone : AllReadable [] := fun _ _ hmem => absurd hmem List.not_mem_nil
  obtain ⟨hmode, htokens⟩ :=
    sound_foldl (s := .start) ⟨trivial, hnone⟩ text.toList
  rw [Token.scan, finish] at h
  have hreverse : ∀ {ts : List Token}, AllReadable ts → AllReadable ts.reverse :=
    fun hts text start hmem => hts text start (List.mem_reverse.mp hmem)
  split at h
  · cases h
    exact hreverse htokens
  · cases h
    exact hreverse htokens
  · rename_i start chars heq
    cases h
    rw [heq] at hmode
    exact hreverse (allReadable_cons_word (.inl hmode) htokens)
  · cases h

end Scanner

/-- every atom of a text is readable -/
theorem Term.readable_of_readAll {text : String} {ts : List Term} (h : readAll text = .ok ts) :
    ∀ t ∈ ts, t.Readable := by
  obtain ⟨tokens, hscan, hlexemes⟩ := readAll_eq_ok_iff.mp h
  intro t ht a ha
  have hmem : .word a ∈ tokens.map Token.lexeme := by
    rw [hlexemes, mem_flatMap_lexemes]
    exact List.mem_flatMap.mpr ⟨t, ht, ha⟩
  obtain ⟨token, htoken, hword⟩ := List.mem_map.mp hmem
  obtain ⟨start, rfl⟩ := Reader.lexeme_eq_word hword
  exact Scanner.allReadable_scan hscan a start htoken

namespace Scanner

variable {s : Scanner} {c : Char} {cs : List Char}

/-! ## what is readable is found -/

/-- the tokens read so far, with a word that may still go on; the last one first -/
def pending (s : Scanner) : List Token :=
  match s.mode with
  | .word start chars => .word (spelling chars) start :: s.tokens
  | _ => s.tokens

/-- the lexemes read so far, with a word that may still go on -/
def lexemes (s : Scanner) : List Lexeme := s.pending.reverse.map Token.lexeme

/-- neither a comment nor a string literal is open -/
def Settled (s : Scanner) : Prop := s.mode = .between ∨ ∃ start chars, s.mode = .word start chars

theorem lexemes_of_between (h : s.mode = .between) :
    s.lexemes = s.tokens.reverse.map Token.lexeme := by
  rw [lexemes, pending, h]

theorem finish_of_settled (h : s.Settled) : s.finish = .ok s.pending.reverse := by
  rcases h with h | ⟨start, chars, h⟩ <;> rw [finish, pending, h]

/-- a character that does not go on with a word ends it -/
theorem absorb_of_settled (h : s.Settled) (hc : isWordChar c = false) :
    s.absorb c = separate s.offset s.pending c := by
  rcases h with h | ⟨start, chars, h⟩
  · rw [absorb, pending, h]
  · rw [absorb, pending, h]
    exact if_neg (by simp [hc])

theorem step_blank (h : s.Settled) (hc : isBlank c = true) :
    (s.step c).mode = .between ∧ (s.step c).lexemes = s.lexemes := by
  have hword : isWordChar c = false := by simp [isWordChar, hc]
  have hstep : s.step c = ⟨.between, s.offset + c.utf8Size, s.pending⟩ := by
    rw [step, absorb_of_settled h hword, separate, if_pos hc]
  rw [hstep]
  exact ⟨rfl, rfl⟩

theorem step_opening (h : s.Settled) :
    (s.step '(').mode = .between ∧ (s.step '(').lexemes = s.lexemes ++ [.opening] := by
  have hstep : s.step '(' =
      ⟨.between, s.offset + '('.utf8Size, .opening s.offset :: s.pending⟩ := by
    rw [step, absorb_of_settled h rfl]
    rfl
  rw [hstep]
  refine ⟨rfl, ?_⟩
  rw [lexemes_of_between rfl, List.reverse_cons, List.map_append]
  rfl

theorem step_closing (h : s.Settled) :
    (s.step ')').mode = .between ∧ (s.step ')').lexemes = s.lexemes ++ [.closing] := by
  have hstep : s.step ')' =
      ⟨.between, s.offset + ')'.utf8Size, .closing s.offset :: s.pending⟩ := by
    rw [step, absorb_of_settled h rfl]
    rfl
  rw [hstep]
  refine ⟨rfl, ?_⟩
  rw [lexemes_of_between rfl, List.reverse_cons, List.map_append]
  rfl

/-- from between two tokens on, the characters spell the lexemes -/
def Reads (cs : List Char) (found : List Lexeme) : Prop :=
  ∀ s : Scanner, s.mode = .between →
    (cs.foldl step s).Settled ∧ (cs.foldl step s).lexemes = s.lexemes ++ found

theorem foldl_word {start : Nat} {chars : List Char} (h : s.mode = .word start chars)
    (hcs : ∀ c ∈ cs, isWordChar c = true) :
    (cs.foldl step s).mode = .word start (cs.reverse ++ chars) ∧
      (cs.foldl step s).tokens = s.tokens := by
  induction cs generalizing s chars with
  | nil => exact ⟨h, rfl⟩
  | cons c cs ih =>
    have hc : isWordChar c = true := hcs c List.mem_cons_self
    have hstep : s.step c = ⟨.word start (c :: chars), s.offset + c.utf8Size, s.tokens⟩ := by
      rw [step, absorb, h]
      simp only [hc, if_true]
    obtain ⟨hmode, htokens⟩ := ih (s := s.step c) (by rw [hstep])
      (fun d hd => hcs d (List.mem_cons_of_mem _ hd))
    rw [List.foldl_cons, hmode, htokens, hstep, List.reverse_cons, List.append_assoc,
      List.singleton_append]
    exact ⟨rfl, rfl⟩

theorem reads_word {a : String} (h : Name.IsWord a) : Reads a.toList [.word a] := by
  intro s hs
  obtain ⟨hne, hall⟩ := h
  cases hchars : a.toList with
  | nil => exact absurd hchars hne
  | cons c cs =>
    rw [hchars] at hall
    have hc : isWordChar c = true := hall c List.mem_cons_self
    have hstep : s.step c = ⟨.word s.offset [c], s.offset + c.utf8Size, s.tokens⟩ := by
      rw [step, absorb, hs]
      simp only [isWordChar, Bool.not_eq_true', Bool.or_eq_false_iff, decide_eq_false_iff_not] at hc
      simp [separate, hc]
    obtain ⟨hmode, htokens⟩ := foldl_word (s := s.step c) (by rw [hstep])
      (fun d hd => hall d (List.mem_cons_of_mem _ hd))
    rw [List.foldl_cons]
    refine ⟨.inr ⟨_, _, hmode⟩, ?_⟩
    rw [lexemes_of_between hs, lexemes, pending, hmode, htokens, hstep]
    simp [spelling, ← hchars]

theorem foldl_literal {start : Nat} {chars : List Char} (h : s.mode = .quoted start chars false)
    (hcs : EndsLiteral cs) :
    (cs.foldl step s).mode = .between ∧
      (cs.foldl step s).tokens = .word (spelling (cs.reverse ++ chars)) start :: s.tokens := by
  induction hcs generalizing s chars with
  | quote =>
    rw [List.foldl_cons, List.foldl_nil, step, absorb, h]
    exact ⟨rfl, rfl⟩
  | @plain c cs hbackslash hquote _ ih =>
    have hstep : s.step c =
        ⟨.quoted start (c :: chars) false, s.offset + c.utf8Size, s.tokens⟩ := by
      rw [step, absorb, h]
      simp only [hbackslash, hquote, if_false]
    rw [List.foldl_cons, hstep]
    simpa using ih rfl
  | @escaped c cs _ ih =>
    have hstep : (s.step '\\').step c = ⟨.quoted start (c :: '\\' :: chars) false,
        s.offset + '\\'.utf8Size + c.utf8Size, s.tokens⟩ := by
      rw [step, step, absorb, absorb, h]
      rfl
    rw [List.foldl_cons, List.foldl_cons, hstep]
    simpa using ih rfl

theorem reads_literal {a : String} (h : Name.IsLiteral a) : Reads a.toList [.word a] := by
  intro s hs
  obtain ⟨cs, hchars, hcs⟩ := h
  have hstep : s.step '\x22' =
      ⟨.quoted s.offset ['\x22'] false, s.offset + '\x22'.utf8Size, s.tokens⟩ := by
    rw [step, absorb, hs]
    rfl
  obtain ⟨hmode, htokens⟩ := foldl_literal (s := s.step '\x22') (by rw [hstep]) hcs
  rw [hchars, List.foldl_cons]
  refine ⟨.inl hmode, ?_⟩
  rw [lexemes_of_between hs, lexemes_of_between hmode, htokens, hstep]
  simp [spelling, ← hchars]

/-- a readable atom is found as it is spelled -/
theorem reads_atom {a : String} (h : Name.IsReadable a) : Reads a.toList [.word a] := by
  rcases h with hword | hliteral
  · exact reads_word hword
  · exact reads_literal hliteral

end Scanner

end OntologyPrep
