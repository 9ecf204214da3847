import Mathlib.Tactic
import OntologyPrep.Text.Reader

/-!
# What the reader reads

Without their offsets, tokens are lexemes, and `Term.lexemes` are the ones that spell a term.
`Reader.term_ok` and `Reader.elements_ok` say that what the reader finds is spelled by the tokens it
takes, and `Reader.term_of_lexemes` that it finds every term that the first tokens spell;
`Reader.terms_eq_ok_iff` puts both together for a whole sequence.
-/

namespace OntologyPrep

/-- a token without its offset -/
inductive Lexeme where
  | opening
  | closing
  | word (text : String)
  deriving DecidableEq, Repr

/-- the token without its offset -/
def Token.lexeme : Token → Lexeme
  | .opening _ => .opening
  | .closing _ => .closing
  | .word text _ => .word text

@[simp] theorem Token.lexeme_opening (start : Nat) : (opening start).lexeme = .opening := rfl

@[simp] theorem Token.lexeme_closing (start : Nat) : (closing start).lexeme = .closing := rfl

@[simp] theorem Token.lexeme_word (text : String) (start : Nat) :
    (word text start).lexeme = .word text := rfl

theorem Token.isClosing_iff {t : Token} : t.isClosing = true ↔ ∃ start, t = .closing start := by
  cases t <;> simp [isClosing]

/-- the lexemes that spell a term -/
def Term.lexemes : Term → List Lexeme
  | .atom a => [.word a]
  | .list items => .opening :: (items.flatMap lexemes ++ [.closing])

@[simp] theorem Term.lexemes_atom (a : String) : (atom a).lexemes = [.word a] := by
  rw [lexemes]

@[simp] theorem Term.lexemes_list (items : List Term) :
    (list items).lexemes = .opening :: (items.flatMap lexemes ++ [.closing]) := by
  rw [lexemes]

namespace Reader

variable {tokens : List Token} {start : Nat}

@[simp] theorem term_nil : term [] = .error .unexpectedEnd := by rw [term]

@[simp] theorem term_word (text : String) : term (.word text start :: tokens) =
    .ok (⟨start, .atom text⟩, ⟨tokens, Nat.lt_add_one _⟩) := by rw [term]

@[simp] theorem term_closing :
    term (.closing start :: tokens) = .error (.unexpectedClosing start) := by rw [term]

/-! ## what is found is what the tokens spell -/

/-- the tokens before the rest spell the term that is found -/
def FindsTerm (tokens : List Token) : Prop :=
  ∀ found rest, term tokens = .ok (found, rest) →
    ∃ inside, tokens = inside ++ rest ∧ inside.map Token.lexeme = found.term.lexemes

/-- the tokens before the closing parenthesis spell the elements that are found -/
def FindsElements (bound start : Nat) (items : List Term) (tokens : List Token)
    (h : tokens.length < bound) : Prop :=
  ∀ all rest, elements start items tokens h = .ok (all, rest) →
    ∃ inside stop found, tokens = inside ++ .closing stop :: rest ∧ all = items.reverse ++ found ∧
      inside.map Token.lexeme = found.flatMap Term.lexemes

theorem findsBoth : (∀ tokens, FindsTerm tokens) ∧
    ∀ bound start items tokens h, FindsElements bound start items tokens h := by
  apply term.mutual_induct FindsTerm FindsElements
  case case1 =>
    intro found rest h
    rw [term_nil] at h
    cases h
  case case2 =>
    intro text start tokens found rest h
    rw [term_word] at h
    cases h
    exact ⟨[.word text start], rfl, by simp⟩
  case case3 =>
    intro start tail found rest h
    rw [term_closing] at h
    cases h
  case case4 =>
    intro start tokens items rest helements ih found rest' h
    rw [term, helements] at h
    cases h
    obtain ⟨inside, stop, found, htokens, hitems, hinside⟩ := ih items rest helements
    rw [List.reverse_nil, List.nil_append] at hitems
    subst hitems
    refine ⟨.opening start :: inside ++ [.closing stop], by simp [htokens], ?_⟩
    simp [hinside]
  case case5 =>
    intro start tokens e helements ih found rest h
    rw [term, helements] at h
    cases h
  case case6 =>
    intro bound start items h _ all rest hall
    rw [elements] at hall
    cases hall
  case case7 =>
    intro bound start items t tokens h hclosing _ all rest hall
    rw [elements, if_pos hclosing] at hall
    cases hall
    obtain ⟨stop, rfl⟩ := Token.isClosing_iff.mp hclosing
    exact ⟨[], stop, [], rfl, by simp, rfl⟩
  case case8 =>
    intro bound start items t tokens h hclosing found rest hterm _ ihterm ih all rest' hall
    rw [elements, if_neg hclosing, hterm] at hall
    obtain ⟨first, htokens, hfirst⟩ := ihterm found rest hterm
    obtain ⟨inside, stop, others, hrest, hothers, hinside⟩ := ih all rest' hall
    refine ⟨first ++ inside, stop, found.term :: others, ?_, ?_, ?_⟩
    · rw [htokens, hrest, List.append_assoc]
    · rw [hothers, List.reverse_cons, List.append_assoc, List.singleton_append]
    · rw [List.map_append, hfirst, hinside, List.flatMap_cons]
  case case9 =>
    intro bound start items t tokens h hclosing e hterm _ _ all rest hall
    rw [elements, if_neg hclosing, hterm] at hall
    cases hall

theorem term_ok {found : Located} {rest : Rest tokens.length}
    (h : term tokens = .ok (found, rest)) :
    ∃ inside, tokens = inside ++ rest ∧ inside.map Token.lexeme = found.term.lexemes :=
  findsBoth.1 tokens found rest h

/-! ## what the tokens spell is found -/

theorem exists_of_map_cons {l : Lexeme} {ls : List Lexeme} (h : tokens.map Token.lexeme = l :: ls) :
    ∃ t ts, tokens = t :: ts ∧ t.lexeme = l ∧ ts.map Token.lexeme = ls := by
  rw [List.map_eq_cons_iff] at h
  obtain ⟨t, ts, htokens, ht, hts⟩ := h
  exact ⟨t, ts, htokens, ht, hts⟩

theorem lexeme_eq_opening {t : Token} (h : t.lexeme = .opening) : ∃ start, t = .opening start := by
  cases t <;> simp_all

theorem lexeme_eq_closing {t : Token} (h : t.lexeme = .closing) : ∃ start, t = .closing start := by
  cases t <;> simp_all

theorem lexeme_eq_word {t : Token} {text : String} (h : t.lexeme = .word text) :
    ∃ start, t = .word text start := by
  cases t <;> simp_all

theorem exists_of_lexemes_list {items : List Term}
    (h : tokens.map Token.lexeme = (Term.list items).lexemes) :
    ∃ start inside stop, tokens = .opening start :: (inside ++ [.closing stop]) ∧
      inside.map Token.lexeme = items.flatMap Term.lexemes := by
  obtain ⟨o, ts, rfl, ho, hts⟩ := exists_of_map_cons (h.trans (Term.lexemes_list items))
  obtain ⟨start, rfl⟩ := lexeme_eq_opening ho
  obtain ⟨inside, last, rfl, hinside, hlast⟩ := List.map_eq_append_iff.mp hts
  obtain ⟨c, cs, rfl, hc, hcs⟩ := exists_of_map_cons hlast
  obtain ⟨stop, rfl⟩ := lexeme_eq_closing hc
  rw [List.map_eq_nil_iff] at hcs
  subst hcs
  exact ⟨start, inside, stop, rfl, hinside⟩

theorem exists_of_lexemes_atom {a : String}
    (h : tokens.map Token.lexeme = (Term.atom a).lexemes) :
    ∃ start, tokens = [.word a start] := by
  obtain ⟨w, ws, rfl, hw, hws⟩ := exists_of_map_cons (h.trans (Term.lexemes_atom a))
  obtain ⟨start, rfl⟩ := lexeme_eq_word hw
  rw [List.map_eq_nil_iff] at hws
  exact ⟨start, by rw [hws]⟩

/-- no term starts with a closing parenthesis -/
theorem exists_lexemes (t : Term) : ∃ l ls, t.lexemes = l :: ls ∧ l ≠ .closing := by
  cases t with
  | atom a => exact ⟨.word a, [], by simp, nofun⟩
  | list items => exact ⟨.opening, _, Term.lexemes_list items, nofun⟩

mutual

/-- the reader finds the term that the first tokens spell, and leaves the others -/
theorem term_of_lexemes : ∀ (t : Term) {inside : List Token},
    inside.map Token.lexeme = t.lexemes → ∀ rest : List Token,
      ∃ start hrest, term (inside ++ rest) = .ok (⟨start, t⟩, ⟨rest, hrest⟩)
  | .atom a, inside, h, rest => by
    obtain ⟨start, rfl⟩ := exists_of_lexemes_atom h
    exact ⟨start, Nat.lt_add_one _, term_word a⟩
  | .list items, inside, h, rest => by
    obtain ⟨start, inside, stop, rfl, hinside⟩ := exists_of_lexemes_list h
    rw [List.cons_append, List.append_assoc, List.singleton_append, term]
    obtain ⟨hrest, hall⟩ := elements_of_lexemes items hinside start [] stop rest
      (Nat.lt_add_one _)
    rw [hall]
    exact ⟨start, hrest, rfl⟩

theorem elements_of_lexemes : ∀ (found : List Term) {inside : List Token},
    inside.map Token.lexeme = found.flatMap Term.lexemes → ∀ (start : Nat) (items : List Term)
      (stop : Nat) (rest : List Token) {bound : Nat}
      (hbound : (inside ++ .closing stop :: rest).length < bound),
      ∃ hrest, elements start items (inside ++ .closing stop :: rest) hbound =
        .ok (items.reverse ++ found, ⟨rest, hrest⟩)
  | [], inside, h, start, items, stop, rest, bound, hbound => by
    rw [List.flatMap_nil, List.map_eq_nil_iff] at h
    subst h
    refine ⟨Nat.lt_of_succ_lt hbound, ?_⟩
    simp only [List.nil_append, List.append_nil]
    rw [elements, if_pos (Token.isClosing_iff.mpr ⟨stop, rfl⟩)]
  | t :: found, inside, h, start, items, stop, rest, bound, hbound => by
    obtain ⟨first, others, rfl, hfirst, hothers⟩ := List.map_eq_append_iff.mp h
    obtain ⟨l, ls, hl, hne⟩ := exists_lexemes t
    obtain ⟨w, ws, rfl, hw, -⟩ := exists_of_map_cons (hfirst.trans hl)
    have hopen : ¬w.isClosing = true := by
      intro hclosing
      obtain ⟨q, rfl⟩ := Token.isClosing_iff.mp hclosing
      exact hne hw.symm
    obtain ⟨p, hrest, hterm⟩ := term_of_lexemes t hfirst (others ++ .closing stop :: rest)
    have hshort : (others ++ .closing stop :: rest).length < bound := by
      simp only [List.length_append, List.length_cons] at hbound ⊢
      omega
    obtain ⟨hend, hall⟩ := elements_of_lexemes found hothers start (t :: items) stop rest hshort
    refine ⟨hend, ?_⟩
    simp only [List.append_assoc, List.cons_append] at hterm ⊢
    rw [elements, if_neg hopen, hterm]
    simp only
    rw [hall, List.reverse_cons, List.append_assoc, List.singleton_append]

end

/-! ## sequences of terms -/

theorem terms_ok {found all : List Located} (h : terms found tokens = .ok all) :
    ∃ new, all = found.reverse ++ new ∧
      tokens.map Token.lexeme = (new.map Located.term).flatMap Term.lexemes := by
  induction found, tokens using terms.induct with
  | case1 found =>
    rw [terms] at h
    cases h
    exact ⟨[], by simp, rfl⟩
  | case2 found t tokens next rest hterm ih =>
    rw [terms, hterm] at h
    obtain ⟨first, htokens, hfirst⟩ := term_ok hterm
    obtain ⟨new, hall, hrest⟩ := ih h
    refine ⟨next :: new, ?_, ?_⟩
    · rw [hall, List.reverse_cons, List.append_assoc, List.singleton_append]
    · rw [htokens, List.map_append, hfirst, hrest, List.map_cons, List.flatMap_cons]
  | case3 found t tokens e hterm =>
    rw [terms, hterm] at h
    cases h

theorem terms_of_lexemes {ts : List Term} (found : List Located)
    (h : tokens.map Token.lexeme = ts.flatMap Term.lexemes) :
    ∃ new, terms found tokens = .ok (found.reverse ++ new) ∧ new.map Located.term = ts := by
  induction ts generalizing found tokens with
  | nil =>
    rw [List.flatMap_nil, List.map_eq_nil_iff] at h
    subst h
    exact ⟨[], by simp [terms], rfl⟩
  | cons t ts ih =>
    obtain ⟨first, others, rfl, hfirst, hothers⟩ := List.map_eq_append_iff.mp h
    obtain ⟨l, ls, hl, -⟩ := exists_lexemes t
    obtain ⟨w, ws, rfl, -, -⟩ := exists_of_map_cons (hfirst.trans hl)
    obtain ⟨start, hrest, hterm⟩ := term_of_lexemes t hfirst others
    obtain ⟨new, hterms, hnew⟩ := ih (⟨start, t⟩ :: found) hothers
    refine ⟨⟨start, t⟩ :: new, ?_, by rw [List.map_cons, hnew]⟩
    simp only [List.cons_append] at hterm ⊢
    rw [terms, hterm]
    simp only
    rw [hterms, List.reverse_cons, List.append_assoc, List.singleton_append]

end Reader

/-- a text is read as some terms exactly if its tokens spell them -/
theorem Term.readAll_eq_ok_iff {text : String} {ts : List Term} : readAll text = .ok ts ↔
    ∃ tokens, Token.scan text = .ok tokens ∧
      tokens.map Token.lexeme = ts.flatMap Term.lexemes := by
  rw [readAll, readLocated]
  cases hscan : Token.scan text with
  | error start => simp [Except.map]
  | ok tokens =>
    simp only [Except.ok.injEq, exists_eq_left']
    constructor
    · intro h
      cases hterms : Reader.terms [] tokens with
      | error e =>
        rw [hterms] at h
        cases h
      | ok found =>
        rw [hterms] at h
        cases h
        obtain ⟨new, hnew, hlexemes⟩ := Reader.terms_ok hterms
        rwa [hnew, List.reverse_nil, List.nil_append]
    · intro h
      obtain ⟨new, hterms, hnew⟩ := Reader.terms_of_lexemes [] h
      rw [hterms, ← hnew]
      rfl

/-- a text is read as one term exactly if it is read as a sequence of one -/
theorem Term.read_eq_ok_iff_readAll {text : String} {t : Term} :
    read text = .ok t ↔ readAll text = .ok [t] := by
  rw [read]
  split <;> simp_all

/-- a text is read as one term exactly if its tokens spell it -/
theorem Term.read_eq_ok_iff {text : String} {t : Term} : read text = .ok t ↔
    ∃ tokens, Token.scan text = .ok tokens ∧ tokens.map Token.lexeme = t.lexemes := by
  rw [read_eq_ok_iff_readAll, readAll_eq_ok_iff, List.flatMap_singleton]

end OntologyPrep
