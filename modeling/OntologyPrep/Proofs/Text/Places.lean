import OntologyPrep.Proofs.Text.Scanning
import OntologyPrep.Proofs.Text.Spelling
import OntologyPrep.Text.Position

/-!
# Where tokens stand

The scanner counts bytes, and a position counts lines and columns.  Both are about the same characters:

* `Position.line_ofOffset`   the line of an offset between two characters is told by the line feeds
                             before it;
* `Token.StandsIn`           a token stands at its offset, behind characters that hold the tokens before it;
* `Token.standsIn_of_scan`   every token of a text does so.
-/

namespace OntologyPrep

/-! ## lines -/

namespace Position

theorem walk_cons (p : Position) (c : Char) (cs : List Char) {n : Nat} (h : 0 < n) :
    p.walk (c :: cs) n = (p.advance c).walk cs (n - c.utf8Size) := by
  cases n with
  | zero => omega
  | succ n => rw [walk]

/-- the bytes of some characters lead past these characters and no others -/
theorem walk_append (p : Position) (xs ys : List Char) :
    p.walk (xs ++ ys) (bytes xs) = xs.foldl advance p := by
  induction xs generalizing p with
  | nil => cases ys <;> rfl
  | cons c xs ih =>
    have hpos := c.utf8Size_pos
    rw [List.cons_append, bytes_cons, walk_cons p c _ (by omega), Nat.add_sub_cancel_left, ih,
      List.foldl_cons]

theorem line_foldl (p : Position) (xs : List Char) :
    (xs.foldl advance p).line = p.line + xs.count '\n' := by
  induction xs generalizing p with
  | nil => rfl
  | cons c xs ih =>
    have hline : (p.advance c).line = p.line + if c = '\n' then 1 else 0 := by
      rw [advance]
      split <;> rfl
    rw [List.foldl_cons, ih, hline, List.count_cons, Nat.add_assoc, Nat.add_comm (ite _ _ _)]
    simp only [beq_iff_eq]

/-- the line is told by the line feeds before the offset -/
theorem line_ofOffset {text : String} {before after : List Char}
    (h : text.toList = before ++ after) :
    (ofOffset text (bytes before)).line = 1 + before.count '\n' := by
  rw [ofOffset, h, walk_append, line_foldl, origin]

end Position

/-! ## tokens -/

namespace Token

/-- the offset of the first byte -/
def start : Token → Nat
  | .opening start => start
  | .closing start => start
  | .word _ start => start

/-- the characters that the token is made of -/
def chars : Token → List Char
  | .opening _ => ['(']
  | .closing _ => [')']
  | .word text _ => text.toList

/-- some characters hold the earlier tokens and nothing else, and behind them the token stands at its
offset -/
def StandsIn (read : List Char) (earlier : List Token) (t : Token) : Prop :=
  ∃ before after, read = before ++ t.chars ++ after ∧ t.start = bytes before ∧
    scan (String.ofList before) = .ok earlier

/-- each of some tokens stands behind those before it; the last one comes first -/
def AllStand (read : List Char) : List Token → Prop
  | [] => True
  | t :: earlier => t.StandsIn read earlier.reverse ∧ AllStand read earlier

variable {read : List Char} {c : Char} {earlier : List Token} {t : Token}

theorem StandsIn.more (h : t.StandsIn read earlier) (c : Char) :
    t.StandsIn (read ++ [c]) earlier := by
  obtain ⟨before, after, rfl, hrest⟩ := h
  exact ⟨before, after ++ [c], by simp, hrest⟩

theorem AllStand.more {tokens : List Token} (h : AllStand read tokens) (c : Char) :
    AllStand (read ++ [c]) tokens := by
  induction tokens with
  | nil => trivial
  | cons t tokens ih => exact ⟨h.1.more c, ih h.2⟩

theorem AllStand.of_append {later : List Token} (h : AllStand read (later ++ t :: earlier)) :
    t.StandsIn read earlier.reverse := by
  induction later with
  | nil => exact h.1
  | cons u later ih => exact ih h.2

end Token

/-! ## the scanner -/

namespace Scanner

open Token

variable {read : List Char} {s : Scanner}

/-- a word or a literal that is open has been opened behind characters that hold the finished tokens -/
def Mode.OpenedIn (read : List Char) (tokens : List Token) : Mode → Prop
  | .between | .comment => True
  | .word start chars | .quoted start chars _ => ∃ before, read = before ++ chars.reverse ∧
    start = bytes before ∧ scan (String.ofList before) = .ok tokens.reverse

/-- the scanner is where it says, and so are its tokens -/
structure Follows (read : List Char) (s : Scanner) : Prop where
  run : read.foldl step .start = s
  offset : s.offset = bytes read
  opened : s.mode.OpenedIn read s.tokens
  stand : AllStand read s.tokens

theorem follows_nil : Follows [] .start := ⟨rfl, rfl, trivial, trivial⟩

theorem scan_of_run {tokens : List Token} (h : Follows read s) (hfinish : s.finish = .ok tokens) :
    scan (String.ofList read) = .ok tokens := by
  rw [scan, String.toList_ofList, h.run, hfinish]

/-- a word that goes on may as well be over -/
theorem Follows.pending (h : Follows read s) : AllStand read s.pending := by
  obtain ⟨mode, offset, tokens⟩ := s
  cases mode with
  | word start chars =>
    obtain ⟨before, hread, hstart, hscan⟩ := h.opened
    refine ⟨⟨before, [], ?_, hstart, hscan⟩, h.stand⟩
    rw [List.append_nil, Token.chars, toList_spelling, hread]
  | between | comment | quoted => exact h.stand

/-- what a character between tokens opens, it opens behind all tokens -/
theorem Follows.separate (h : Follows read s) (hs : s.Settled) (c : Char) :
    (separate s.offset s.pending c).1.OpenedIn (read ++ [c]) (separate s.offset s.pending c).2 ∧
      AllStand (read ++ [c]) (separate s.offset s.pending c).2 := by
  have hscan := scan_of_run h (finish_of_settled hs)
  have hstand := h.pending.more c
  have hnew : ∀ t : Token, t.chars = [c] → t.start = s.offset →
      AllStand (read ++ [c]) (t :: s.pending) := by
    intro t hchars hstart
    refine ⟨⟨read, [], ?_, hstart.trans h.offset, hscan⟩, hstand⟩
    rw [hchars, List.append_nil]
  rw [Scanner.separate]
  split_ifs with hblank hsemicolon hopening hclosing hquote
  · exact ⟨trivial, hstand⟩
  · exact ⟨trivial, hstand⟩
  · exact ⟨trivial, hnew _ (by rw [hopening]; rfl) rfl⟩
  · exact ⟨trivial, hnew _ (by rw [hclosing]; rfl) rfl⟩
  · exact ⟨⟨read, rfl, h.offset, hscan⟩, hstand⟩
  · exact ⟨⟨read, rfl, h.offset, hscan⟩, hstand⟩

/-- what is open stays open where it was opened -/
theorem openedIn_more {start : Nat} {chars : List Char} {tokens : List Token}
    (h : (Mode.word start chars).OpenedIn read tokens) (c : Char) :
    (Mode.word start (c :: chars)).OpenedIn (read ++ [c]) tokens := by
  obtain ⟨before, rfl, hrest⟩ := h
  exact ⟨before, by simp, hrest⟩

theorem Follows.absorb (h : Follows read s) (c : Char) :
    (s.absorb c).1.OpenedIn (read ++ [c]) (s.absorb c).2 ∧
      AllStand (read ++ [c]) (s.absorb c).2 := by
  obtain ⟨mode, offset, tokens⟩ := s
  have hopened := h.opened
  have hstand := h.stand.more c
  cases mode with
  | between => exact h.separate (.inl rfl) c
  | comment =>
    simp only [Scanner.absorb]
    split_ifs
    · exact ⟨trivial, hstand⟩
    · exact ⟨trivial, hstand⟩
  | word start chars =>
    simp only [Scanner.absorb]
    split_ifs
    · exact ⟨openedIn_more hopened c, hstand⟩
    · exact h.separate (.inr ⟨start, chars, rfl⟩) c
  | quoted start chars escaped =>
    cases escaped with
    | true => exact ⟨openedIn_more hopened c, hstand⟩
    | false =>
      simp only [Scanner.absorb]
      split_ifs
      · exact ⟨openedIn_more hopened c, hstand⟩
      · obtain ⟨before, hread, hrest⟩ := openedIn_more hopened c
        refine ⟨trivial, ⟨before, [], ?_, hrest⟩, hstand⟩
        rw [List.append_nil, Token.chars, toList_spelling, hread]
      · exact ⟨openedIn_more hopened c, hstand⟩

theorem Follows.step (h : Follows read s) (c : Char) : Follows (read ++ [c]) (s.step c) where
  run := by rw [List.foldl_append, h.run, List.foldl_cons, List.foldl_nil]
  offset := by
    rw [bytes_append, ← h.offset, bytes_cons, bytes_nil]
    rfl
  opened := (h.absorb c).1
  stand := (h.absorb c).2

theorem follows_foldl (read : List Char) : Follows read (read.foldl step .start) := by
  induction read using List.reverseRecOn with
  | nil => exact follows_nil
  | append_singleton read c ih =>
    rw [List.foldl_append, List.foldl_cons, List.foldl_nil]
    exact ih.step c

theorem pending_of_finish {tokens : List Token} (h : s.finish = .ok tokens) :
    s.pending.reverse = tokens := by
  rw [finish] at h
  split at h
  · next hmode =>
    cases h
    rw [Scanner.pending, hmode]
  · next hmode =>
    cases h
    rw [Scanner.pending, hmode]
  · next hmode =>
    cases h
    rw [Scanner.pending, hmode]
  · cases h

end Scanner

/-- every token of a text stands at its offset, behind characters that hold the tokens before it -/
theorem Token.standsIn_of_scan {text : String} {earlier later : List Token} {t : Token}
    (h : scan text = .ok (earlier ++ t :: later)) : t.StandsIn text.toList earlier := by
  have hstand := (Scanner.follows_foldl text.toList).pending
  have hpending : (text.toList.foldl Scanner.step .start).pending =
      later.reverse ++ t :: earlier.reverse := by
    rw [← List.reverse_reverse (Scanner.pending _), Scanner.pending_of_finish h,
      List.reverse_append, List.reverse_cons, List.append_assoc, List.singleton_append]
  rw [hpending] at hstand
  have ht := hstand.of_append
  rwa [List.reverse_reverse] at ht

end OntologyPrep
