import OntologyPrep.Formula
import OntologyPrep.Proofs.Text.Places

/-!
# Texts below each other

Two texts that can be read, with a line feed between them, are read as the terms of the first and then
those of the second.

* `Reader.Spells`             some tokens spell some terms, each at the place of its first token;
* `Scanner.step_behind`       what is scanned does not depend on the bytes and the tokens before;
* `Scanner.step_lineFeed`     a line feed ends a word and a comment;
* `Term.stands_of_readLocated`   a term stands at its offset, behind the terms before it;
* `Formula.readAll_joined`    the formulas of the two texts, the lines of the second moved down.
-/

namespace OntologyPrep

/-! ## moved tokens -/

namespace Token

/-- the token so many bytes further on -/
def shift (n : Nat) : Token → Token
  | .opening start => .opening (start + n)
  | .closing start => .closing (start + n)
  | .word text start => .word text (start + n)

@[simp] theorem lexeme_shift (n : Nat) (t : Token) : (t.shift n).lexeme = t.lexeme := by
  cases t <;> rfl

@[simp] theorem start_shift (n : Nat) (t : Token) : (t.shift n).start = t.start + n := by
  cases t <;> rfl

theorem map_lexeme_shift (n : Nat) (tokens : List Token) :
    (tokens.map (shift n)).map lexeme = tokens.map lexeme := by
  rw [List.map_map]
  exact List.map_congr_left fun t _ => lexeme_shift n t

end Token

/-- the term so many bytes further on -/
def Located.shift (n : Nat) (f : Located) : Located := { f with start := f.start + n }

/-! ## tokens that spell terms -/

namespace Reader

/-- the tokens spell the terms one after another, and each starts where its first token does -/
inductive Spells : List Token → List Located → Prop where
  | nil : Spells [] []
  | cons {first : Token} {inside rest : List Token} {t : Term} {found : List Located} :
      (first :: inside).map Token.lexeme = t.lexemes → Spells rest found →
      Spells (first :: inside ++ rest) (⟨first.start, t⟩ :: found)

variable {tokens : List Token} {found : List Located}

theorem start_of_term {first : Token} {next : Located} {rest : Rest (first :: tokens).length}
    (h : term (first :: tokens) = .ok (next, rest)) : next.start = first.start := by
  cases first with
  | word text start =>
    rw [term_word] at h
    cases h
    rfl
  | closing start =>
    rw [term_closing] at h
    cases h
  | opening start =>
    rw [term] at h
    split at h
    · cases h
      rfl
    · cases h

theorem spells_of_terms {all : List Located} (h : terms found tokens = .ok all) :
    ∃ new, all = found.reverse ++ new ∧ Spells tokens new := by
  induction found, tokens using terms.induct with
  | case1 found =>
    rw [terms] at h
    cases h
    exact ⟨[], by simp, .nil⟩
  | case2 found first tokens next rest hterm ih =>
    rw [terms, hterm] at h
    obtain ⟨new, hall, hrest⟩ := ih h
    obtain ⟨inside, htokens, hinside⟩ := term_ok hterm
    obtain ⟨l, ls, hl, -⟩ := exists_lexemes next.term
    obtain ⟨w, ws, rfl, -, -⟩ := exists_of_map_cons (hinside.trans hl)
    obtain ⟨rfl, -⟩ := List.cons.inj htokens
    have hnext : next = ⟨first.start, next.term⟩ := by rw [← start_of_term hterm]
    refine ⟨next :: new, ?_, ?_⟩
    · rw [hall, List.reverse_cons, List.append_assoc, List.singleton_append]
    · rw [htokens, hnext]
      exact .cons hinside hrest
  | case3 found first tokens e hterm =>
    rw [terms, hterm] at h
    cases h

theorem terms_of_spells {new : List Located} (h : Spells tokens new) :
    terms found tokens = .ok (found.reverse ++ new) := by
  induction h generalizing found with
  | nil => simp [terms]
  | @cons first inside rest t new hinside _ ih =>
    obtain ⟨start, hrest, hterm⟩ := term_of_lexemes t hinside rest
    have hstart : start = first.start := start_of_term hterm
    simp only [List.cons_append] at hterm ⊢
    rw [terms, hterm]
    simp only
    rw [ih, hstart, List.reverse_cons, List.append_assoc, List.singleton_append]

theorem Spells.append {others : List Token} {new : List Located} (h : Spells tokens found)
    (h' : Spells others new) : Spells (tokens ++ others) (found ++ new) := by
  induction h with
  | nil => exact h'
  | cons hinside _ ih =>
    rw [List.append_assoc, List.cons_append]
    exact .cons hinside ih

theorem Spells.shift (h : Spells tokens found) (n : Nat) :
    Spells (tokens.map (Token.shift n)) (found.map (Located.shift n)) := by
  induction h with
  | nil => exact .nil
  | @cons first inside rest t found hinside _ ih =>
    rw [List.map_append, List.map_cons, List.map_cons, Located.shift, ← Token.start_shift]
    refine .cons ?_ ih
    rw [← hinside, ← List.map_cons, Token.map_lexeme_shift]

/-- each term has a first token, and the tokens before that one spell the terms before it -/
theorem Spells.split {earlier later : List Located} {f : Located}
    (h : Spells tokens (earlier ++ f :: later)) :
    ∃ before first after, tokens = before ++ first :: after ∧ Spells before earlier ∧
      f.start = first.start ∧ ∃ ls, f.term.lexemes = first.lexeme :: ls := by
  induction earlier generalizing tokens with
  | nil =>
    cases h with
    | @cons first inside rest t _ hinside hrest =>
      exact ⟨[], first, inside ++ rest, rfl, .nil, rfl, inside.map Token.lexeme, hinside.symm⟩
  | cons g earlier ih =>
    cases h with
    | @cons first inside rest t _ hinside hrest =>
      obtain ⟨before, first', after, rfl, hbefore, hfirst⟩ := ih hrest
      refine ⟨first :: inside ++ before, first', after, ?_, .cons hinside hbefore, hfirst⟩
      rw [List.append_assoc]

end Reader

/-- a text is read as terms at their places exactly if its tokens spell them there -/
theorem Term.readLocated_eq_ok_iff {text : String} {found : List Located} :
    readLocated text = .ok found ↔
      ∃ tokens, Token.scan text = .ok tokens ∧ Reader.Spells tokens found := by
  rw [readLocated]
  cases hscan : Token.scan text with
  | error start =>
    constructor
    · intro h
      cases h
    · intro h
      obtain ⟨tokens, htokens, -⟩ := h
      cases htokens
  | ok tokens =>
    constructor
    · intro h
      obtain ⟨new, rfl, hnew⟩ := Reader.spells_of_terms h
      exact ⟨tokens, rfl, hnew⟩
    · intro h
      obtain ⟨others, hothers, hspells⟩ := h
      cases hothers
      exact Reader.terms_of_spells hspells

theorem Term.readAll_eq_ok_iff_located {text : String} {ts : List Term} : readAll text = .ok ts ↔
    ∃ found, readLocated text = .ok found ∧ ts = found.map Located.term := by
  rw [readAll]
  cases hfound : readLocated text with
  | error e => simp [Except.map]
  | ok found => simp [Except.map, eq_comm]

/-! ## the scanner below other lines -/

namespace Scanner

/-- what is open so many bytes further on -/
def Mode.shift (n : Nat) : Mode → Mode
  | .between => .between
  | .comment => .comment
  | .word start chars => .word (start + n) chars
  | .quoted start chars escaped => .quoted (start + n) chars escaped

/-- the scanner with other tokens and so many bytes before it -/
def behind (earlier : List Token) (n : Nat) (s : Scanner) : Scanner :=
  ⟨s.mode.shift n, s.offset + n, s.tokens.map (Token.shift n) ++ earlier⟩

variable {s : Scanner} {tokens : List Token}

theorem separate_behind (earlier : List Token) (n offset : Nat) (tokens : List Token) (c : Char) :
    separate (offset + n) (tokens.map (Token.shift n) ++ earlier) c =
      ((separate offset tokens c).1.shift n,
        (separate offset tokens c).2.map (Token.shift n) ++ earlier) := by
  simp only [separate]
  split_ifs <;> rfl

theorem absorb_behind (earlier : List Token) (n : Nat) (s : Scanner) (c : Char) :
    (s.behind earlier n).absorb c =
      ((s.absorb c).1.shift n, (s.absorb c).2.map (Token.shift n) ++ earlier) := by
  obtain ⟨mode, offset, tokens⟩ := s
  cases mode with
  | between => exact separate_behind earlier n offset tokens c
  | comment =>
    simp only [behind, absorb, Mode.shift]
    split_ifs <;> rfl
  | word start chars =>
    simp only [behind, absorb, Mode.shift]
    split_ifs
    · rfl
    · exact separate_behind earlier n offset (.word (spelling chars) start :: tokens) c
  | quoted start chars escaped =>
    cases escaped with
    | true => rfl
    | false =>
      simp only [behind, absorb, Mode.shift]
      split_ifs <;> rfl

theorem step_behind (earlier : List Token) (n : Nat) (s : Scanner) (c : Char) :
    (s.behind earlier n).step c = (s.step c).behind earlier n := by
  rw [step, absorb_behind]
  simp only [step, behind, Nat.add_right_comm]

theorem foldl_behind (earlier : List Token) (n : Nat) (s : Scanner) (cs : List Char) :
    cs.foldl step (s.behind earlier n) = (cs.foldl step s).behind earlier n := by
  induction cs generalizing s with
  | nil => rfl
  | cons c cs ih => rw [List.foldl_cons, List.foldl_cons, step_behind, ih]

theorem finish_behind (earlier : List Token) (n : Nat) (h : s.finish = .ok tokens) :
    (s.behind earlier n).finish = .ok (earlier.reverse ++ tokens.map (Token.shift n)) := by
  obtain ⟨mode, offset, found⟩ := s
  cases mode with
  | between =>
    cases h
    simp [finish, behind, Mode.shift]
  | comment =>
    cases h
    simp [finish, behind, Mode.shift]
  | word start chars =>
    cases h
    simp [finish, behind, Mode.shift, Token.shift]
  | quoted start chars escaped => cases h

/-- a line feed ends a word and a comment, and the text below starts afresh -/
theorem step_lineFeed (h : s.finish = .ok tokens) :
    s.step '\n' = Scanner.start.behind tokens.reverse (s.offset + 1) := by
  obtain ⟨mode, offset, found⟩ := s
  have hoffset : 0 + (offset + 1) = offset + '\n'.utf8Size := Nat.zero_add _
  cases mode with
  | between =>
    cases h
    simp [step, absorb, separate, isBlank, behind, start, Mode.shift, hoffset]
  | comment =>
    cases h
    simp [step, absorb, behind, start, Mode.shift, hoffset]
  | word begin chars =>
    cases h
    simp [step, absorb, isWordChar, separate, isBlank, behind, start, Mode.shift, hoffset]
  | quoted begin chars escaped => cases h

end Scanner

theorem toList_joined (a b : String) :
    (a ++ "\n" ++ b).toList = a.toList ++ '\n' :: b.toList := by
  rw [String.toList_append, String.toList_append, List.append_assoc]
  rfl

/-- the tokens of a text are followed by those of the text below it -/
theorem Token.scan_joined {a b : String} {xs ys : List Token} (ha : scan a = .ok xs)
    (hb : scan b = .ok ys) :
    scan (a ++ "\n" ++ b) = .ok (xs ++ ys.map (shift (bytes a.toList + 1))) := by
  rw [scan, toList_joined, List.foldl_append, List.foldl_cons, Scanner.step_lineFeed ha,
    Scanner.foldl_behind, (Scanner.follows_foldl a.toList).offset,
    Scanner.finish_behind _ _ hb, List.reverse_reverse]

namespace Term

/-- the terms of a text are followed by those of the text below it -/
theorem readLocated_joined {a b : String} {fs gs : List Located} (ha : readLocated a = .ok fs)
    (hb : readLocated b = .ok gs) :
    readLocated (a ++ "\n" ++ b) = .ok (fs ++ gs.map (Located.shift (bytes a.toList + 1))) := by
  obtain ⟨xs, hxs, hfs⟩ := readLocated_eq_ok_iff.mp ha
  obtain ⟨ys, hys, hgs⟩ := readLocated_eq_ok_iff.mp hb
  exact readLocated_eq_ok_iff.mpr ⟨_, Token.scan_joined hxs hys, hfs.append (hgs.shift _)⟩

/-- the first characters of the text of a term: an atom as it is, or what opens a list -/
def opening : Term → List Char
  | .atom a => a.toList
  | .list _ => ['(']

theorem chars_of_lexemes {t : Term} {first : Token} {ls : List Lexeme}
    (h : t.lexemes = first.lexeme :: ls) : first.chars = t.opening := by
  cases t with
  | atom a =>
    rw [lexemes_atom] at h
    obtain ⟨start, rfl⟩ := Reader.lexeme_eq_word (List.cons.inj h).1.symm
    rfl
  | list items =>
    rw [lexemes_list] at h
    obtain ⟨start, rfl⟩ := Reader.lexeme_eq_opening (List.cons.inj h).1.symm
    rfl

/-- a term of a text stands at its offset, behind characters that are read as the terms before it -/
theorem stands_of_readLocated {text : String} {earlier later : List Located} {f : Located}
    (h : readLocated text = .ok (earlier ++ f :: later)) :
    ∃ before after, text.toList = before ++ f.term.opening ++ after ∧ f.start = bytes before ∧
      readLocated (String.ofList before) = .ok earlier := by
  obtain ⟨tokens, hscan, hspells⟩ := readLocated_eq_ok_iff.mp h
  obtain ⟨xs, first, ys, rfl, hearlier, hstart, ls, hls⟩ := hspells.split
  obtain ⟨before, after, htext, hbytes, hbefore⟩ := Token.standsIn_of_scan hscan
  rw [chars_of_lexemes hls] at htext
  exact ⟨before, after, htext, hstart.trans hbytes,
    readLocated_eq_ok_iff.mpr ⟨xs, hbefore, hearlier⟩⟩

/-! ## lines of terms -/

/-- what follows a text does not change the lines of its terms -/
theorem line_above {text whole : String} {more : List Char} {found : List Located}
    (h : readLocated text = .ok found) (hwhole : whole.toList = text.toList ++ more) {f : Located}
    (hf : f ∈ found) :
    (Position.ofOffset whole f.start).line = (Position.ofOffset text f.start).line := by
  obtain ⟨earlier, later, rfl⟩ := List.append_of_mem hf
  obtain ⟨before, after, htext, hstart, -⟩ := stands_of_readLocated h
  rw [List.append_assoc] at htext
  rw [htext, List.append_assoc] at hwhole
  rw [hstart, Position.line_ofOffset htext, Position.line_ofOffset hwhole]

/-- the lines of its terms are counted from the line feed above a text -/
theorem line_below {text whole : String} {above : List Char} {found : List Located}
    (h : readLocated text = .ok found) (hwhole : whole.toList = above ++ '\n' :: text.toList)
    {f : Located} (hf : f ∈ found) :
    (Position.ofOffset whole (f.start + (bytes above + 1))).line =
      (Position.ofOffset text f.start).line + (1 + above.count '\n') := by
  obtain ⟨earlier, later, rfl⟩ := List.append_of_mem hf
  obtain ⟨before, after, htext, hstart, -⟩ := stands_of_readLocated h
  rw [List.append_assoc] at htext
  have hbytes : f.start + (bytes above + 1) = bytes (above ++ '\n' :: before) := by
    rw [hstart, bytes_append, bytes_cons, show '\n'.utf8Size = 1 from rfl]
    omega
  have hsplit : whole.toList = (above ++ '\n' :: before) ++ (f.term.opening ++ after) := by
    rw [hwhole, htext, List.append_assoc, List.cons_append]
  rw [hbytes, Position.line_ofOffset hsplit, hstart, Position.line_ofOffset htext,
    List.count_append, List.count_cons_self]
  omega

end Term

/-! ## formulas -/

namespace Formula

/-- the formula of a term at its place in a text -/
def ofLocated (text : String) (source : Option String) (f : Located) : Formula :=
  { ofTerm f.term with source := source, line := some (Position.ofOffset text f.start).line }

/-- the formula so many lines further down -/
def below (n : Nat) (f : Formula) : Formula := { f with line := f.line.map (· + n) }

/-- the formula stands in the line of its first character, behind characters that are read as the earlier
formulas -/
def StandsIn (text : String) (source : Option String) (earlier : List Formula) (f : Formula) :
    Prop :=
  ∃ t before after, f.term = some t ∧ text.toList = before ++ t.opening ++ after ∧
    f.line = some (1 + before.count '\n') ∧ readAll (String.ofList before) source = .ok earlier

variable {text : String} {source : Option String} {found : List Located} {fs : List Formula}

theorem readAll_of_readLocated (h : Term.readLocated text = .ok found) :
    readAll text source = .ok (found.map (ofLocated text source)) := by
  rw [readAll, h]
  rfl

theorem readAll_eq_ok_iff : readAll text source = .ok fs ↔
    ∃ found, Term.readLocated text = .ok found ∧ fs = found.map (ofLocated text source) := by
  constructor
  · intro h
    cases hfound : Term.readLocated text with
    | error e =>
      rw [readAll, hfound] at h
      cases h
    | ok found =>
      rw [readAll_of_readLocated hfound] at h
      cases h
      exact ⟨found, rfl, rfl⟩
  · intro h
    obtain ⟨found, hfound, rfl⟩ := h
    exact readAll_of_readLocated hfound

theorem standsIn_of_readAll {earlier later : List Formula} {f : Formula}
    (h : readAll text source = .ok (earlier ++ f :: later)) : f.StandsIn text source earlier := by
  obtain ⟨found, hfound, hall⟩ := readAll_eq_ok_iff.mp h
  obtain ⟨first, rest, rfl, rfl, hrest⟩ := List.map_eq_append_iff.mp hall.symm
  obtain ⟨g, others, rfl, rfl, -⟩ := List.map_eq_cons_iff.mp hrest
  obtain ⟨before, after, htext, hstart, hbefore⟩ := Term.stands_of_readLocated hfound
  have hsplit : text.toList = before ++ (g.term.opening ++ after) := by
    rw [htext, List.append_assoc]
  refine ⟨g.term, before, after, rfl, htext, ?_, ?_⟩
  · rw [ofLocated, hstart, Position.line_ofOffset hsplit]
  · rw [readAll_of_readLocated hbefore]
    refine congrArg Except.ok (List.map_congr_left fun e he => ?_)
    have hprefix : text.toList = (String.ofList before).toList ++ (g.term.opening ++ after) := by
      rw [String.toList_ofList, hsplit]
    rw [ofLocated, ofLocated, Term.line_above hbefore hprefix he]

theorem map_term_ofLocated (text : String) (source : Option String) (found : List Located) :
    (found.map (ofLocated text source)).map term = (found.map Located.term).map some := by
  rw [List.map_map, List.map_map]
  rfl

/-- Texts with a line feed between them are read as the formulas of the first and then those of the
second, which stand as many lines further down as the first text has line feeds, and one.  The terms are
those that are read without lines, and every formula is in the line of its first character. -/
theorem readAll_joined {a b : String} {ts us : List Term} (ha : Term.readAll a = .ok ts)
    (hb : Term.readAll b = .ok us) (source : Option String) :
    ∃ fs gs, readAll a source = .ok fs ∧ readAll b source = .ok gs ∧
      readAll (a ++ "\n" ++ b) source =
        .ok (fs ++ gs.map (below (1 + a.toList.count '\n'))) ∧
      Term.readAll (a ++ "\n" ++ b) = .ok (ts ++ us) ∧
      fs.map term = ts.map some ∧ gs.map term = us.map some ∧
      ∀ earlier f later, fs ++ gs.map (below (1 + a.toList.count '\n')) = earlier ++ f :: later →
        f.StandsIn (a ++ "\n" ++ b) source earlier := by
  obtain ⟨above, habove, rfl⟩ := Term.readAll_eq_ok_iff_located.mp ha
  obtain ⟨under, hunder, rfl⟩ := Term.readAll_eq_ok_iff_located.mp hb
  have hwhole := Term.readLocated_joined habove hunder
  have hjoined : readAll (a ++ "\n" ++ b) source =
      .ok (above.map (ofLocated a source) ++
        (under.map (ofLocated b source)).map (below (1 + a.toList.count '\n'))) := by
    rw [readAll_of_readLocated hwhole, List.map_append, List.map_map, List.map_map]
    refine congrArg Except.ok (congrArg₂ _ ?_ ?_)
    · refine List.map_congr_left fun f hf => ?_
      rw [ofLocated, ofLocated, Term.line_above habove (toList_joined a b) hf]
    · refine List.map_congr_left fun g hg => ?_
      have hline := Term.line_below hunder (toList_joined a b) hg
      simp only [Function.comp_apply, ofLocated, Located.shift, below, Option.map_some, hline]
  refine ⟨_, _, readAll_of_readLocated habove, readAll_of_readLocated hunder, hjoined, ?_,
    map_term_ofLocated a source above, map_term_ofLocated b source under, ?_⟩
  · refine Term.readAll_eq_ok_iff_located.mpr ⟨_, hwhole, ?_⟩
    rw [List.map_append, List.map_map]
    rfl
  · intro earlier f later hall
    rw [hall] at hjoined
    exact standsIn_of_readAll hjoined

/-- a text that ends in a comment, and one with characters of several bytes above a literal of two lines
and a formula in the third -/
theorem readAll_joined_comments : ∃ fs gs,
    readAll "(p é)\nq ; no (" (some "f.kif") = .ok fs ∧
      readAll "é \"a\nb\"\n (r x)" (some "f.kif") = .ok gs ∧
      readAll ("(p é)\nq ; no (" ++ "\n" ++ "é \"a\nb\"\n (r x)") (some "f.kif") =
        .ok (fs ++ gs.map (below 2)) ∧
      (fs ++ gs.map (below 2)).map line = [some 1, some 2, some 3, some 3, some 5] := by
  have ha : Term.readAll "(p é)\nq ; no (" = .ok [.app "p" [.atom "é"], .atom "q"] := by cbv
  have hb : Term.readAll "é \"a\nb\"\n (r x)" =
      .ok [.atom "é", .atom "\"a\nb\"", .app "r" [.atom "x"]] := by cbv
  obtain ⟨fs, gs, hfs, hgs, hjoined, -⟩ := readAll_joined ha hb (some "f.kif")
  refine ⟨fs, gs, hfs, hgs, hjoined, ?_⟩
  have hlines : (readAll ("(p é)\nq ; no (" ++ "\n" ++ "é \"a\nb\"\n (r x)")
      (some "f.kif")).map (List.map line) = .ok [some 1, some 2, some 3, some 3, some 5] := by cbv
  rw [hjoined] at hlines
  exact Except.ok.inj hlines

end Formula

end OntologyPrep
