import OntologyPrep.Proofs.Text.Spelling
import OntologyPrep.Term.Printer

/-!
# Reading what was rendered

A term whose atoms are readable is read back from its rendering, and so are several terms with any
blanks between their renderings.  As every atom of a text is readable, rendering undoes reading
(`Term.read_render_of_readAll`).
-/

namespace OntologyPrep

/-- blanks, at least one -/
def IsGap (gap : String) : Prop := gap ≠ "" ∧ ∀ c ∈ gap.toList, Scanner.isBlank c = true

namespace Term

/-- the renderings of some terms, with the gaps between them -/
def renderAll (gap : Nat → String) : List Term → String
  | [] => ""
  | [t] => t.render
  | t :: u :: ts => t.render ++ gap 0 ++ renderAll (fun i => gap (i + 1)) (u :: ts)

/-- with the same gap everywhere, the renderings are joined by it -/
theorem renderAll_const (gap : String) (ts : List Term) :
    renderAll (fun _ => gap) ts = gap.intercalate (ts.map render) := by
  match ts with
  | [] => rfl
  | [t] => rw [renderAll, List.map_singleton, String.intercalate_singleton]
  | t :: u :: ts =>
    rw [renderAll, renderAll_const gap (u :: ts)]
    simp only [List.map_cons, String.intercalate_cons_cons]

end Term

namespace Scanner

/-- blanks end a word and are otherwise skipped -/
theorem foldl_blanks {s : Scanner} {cs : List Char} (h : s.mode = .between)
    (hcs : ∀ c ∈ cs, isBlank c = true) :
    (cs.foldl step s).mode = .between ∧ (cs.foldl step s).lexemes = s.lexemes := by
  induction cs generalizing s with
  | nil => exact ⟨h, rfl⟩
  | cons c cs ih =>
    obtain ⟨hmode, hlexemes⟩ := step_blank (.inl h) (hcs c List.mem_cons_self)
    rw [List.foldl_cons, ← hlexemes]
    exact ih hmode fun d hd => hcs d (List.mem_cons_of_mem _ hd)

theorem foldl_gap {s : Scanner} {gap : String} (h : s.Settled) (hgap : IsGap gap) :
    (gap.toList.foldl step s).mode = .between ∧ (gap.toList.foldl step s).lexemes = s.lexemes := by
  obtain ⟨hne, hblank⟩ := hgap
  cases hchars : gap.toList with
  | nil => exact absurd (String.toList_eq_nil_iff.mp hchars) hne
  | cons c cs =>
    rw [hchars] at hblank
    obtain ⟨hmode, hlexemes⟩ := step_blank h (hblank c List.mem_cons_self)
    rw [List.foldl_cons, ← hlexemes]
    exact foldl_blanks hmode fun d hd => hblank d (List.mem_cons_of_mem _ hd)

theorem reads_nil : Reads [] [] := fun _ hs => ⟨.inl hs, (List.append_nil _).symm⟩

/-- what two texts spell, the two with a gap between them spell together -/
theorem Reads.append {xs ys : List Char} {ls ms : List Lexeme} {gap : String} (hxs : Reads xs ls)
    (hgap : IsGap gap) (hys : Reads ys ms) : Reads (xs ++ gap.toList ++ ys) (ls ++ ms) := by
  intro s hs
  obtain ⟨hsettled, hls⟩ := hxs s hs
  obtain ⟨hbetween, hsame⟩ := foldl_gap hsettled hgap
  obtain ⟨hend, hms⟩ := hys _ hbetween
  rw [List.foldl_append, List.foldl_append]
  exact ⟨hend, by rw [hms, hsame, hls, List.append_assoc]⟩

/-- what a text spells, it spells as the elements of a list in parentheses -/
theorem Reads.wrap {cs : List Char} {ls : List Lexeme} (h : Reads cs ls) :
    Reads ('(' :: (cs ++ [')'])) (.opening :: (ls ++ [.closing])) := by
  intro s hs
  obtain ⟨hbetween, hopening⟩ := step_opening (.inl hs)
  obtain ⟨hsettled, hls⟩ := h _ hbetween
  obtain ⟨hend, hclosing⟩ := step_closing hsettled
  rw [List.foldl_cons, List.foldl_append, List.foldl_cons, List.foldl_nil]
  refine ⟨.inl hend, ?_⟩
  rw [hclosing, hls, hopening]
  simp

theorem reads_renderAll {ts : List Term} {gap : Nat → String} (hgap : ∀ i, IsGap (gap i))
    (h : ∀ t ∈ ts, Reads t.render.toList t.lexemes) :
    Reads (Term.renderAll gap ts).toList (ts.flatMap Term.lexemes) := by
  match ts with
  | [] => exact reads_nil
  | [t] =>
    rw [Term.renderAll, List.flatMap_singleton]
    exact h t List.mem_cons_self
  | t :: u :: ts =>
    rw [Term.renderAll, String.toList_append, String.toList_append, List.flatMap_cons]
    exact (h t List.mem_cons_self).append (hgap 0)
      (reads_renderAll (fun i => hgap (i + 1)) fun v hv => h v (List.mem_cons_of_mem _ hv))

theorem isGap_space : IsGap " " := ⟨by decide, List.all_eq_true.mp (by decide)⟩

/-- a term with readable atoms is spelled by its rendering -/
theorem reads_render {t : Term} (h : t.Readable) : Reads t.render.toList t.lexemes := by
  induction t using Term.render.induct with
  | case1 a =>
    rw [Term.render, Term.lexemes_atom]
    exact reads_atom (Term.readable_atom.mp h)
  | case2 items ih =>
    have hitems : ∀ u ∈ items, Reads u.render.toList u.lexemes :=
      fun u hu => ih u hu (Term.readable_list.mp h u hu)
    have htext : (Term.list items).render.toList =
        '(' :: ((Term.renderAll (fun _ => " ") items).toList ++ [')']) := by
      rw [Term.render, Term.renderAll_const, String.toList_append, String.toList_append]
      rfl
    rw [htext, Term.lexemes_list]
    exact (reads_renderAll (fun _ => isGap_space) hitems).wrap

/-- a text that spells some lexemes is scanned as tokens for them -/
theorem scan_of_reads {text : String} {ls : List Lexeme} (h : Reads text.toList ls) :
    ∃ tokens, Token.scan text = .ok tokens ∧ tokens.map Token.lexeme = ls := by
  obtain ⟨hsettled, hls⟩ := h .start rfl
  exact ⟨_, finish_of_settled hsettled, hls⟩

end Scanner

namespace Term

/-- a term with readable atoms is read back from its rendering -/
theorem read_render {t : Term} (h : t.Readable) : read t.render = .ok t :=
  read_eq_ok_iff.mpr (Scanner.scan_of_reads (Scanner.reads_render h))

/-- rendering undoes reading, also with other blanks between the terms -/
theorem read_render_of_readAll {text : String} {ts : List Term} (h : readAll text = .ok ts) :
    (∀ t ∈ ts, read t.render = .ok t) ∧
      ∀ gap : Nat → String, (∀ i, IsGap (gap i)) → readAll (renderAll gap ts) = .ok ts := by
  have hreadable := readable_of_readAll h
  refine ⟨fun t ht => read_render (hreadable t ht), fun gap hgap => ?_⟩
  refine readAll_eq_ok_iff.mpr (Scanner.scan_of_reads (Scanner.reads_renderAll hgap ?_))
  exact fun t ht => Scanner.reads_render (hreadable t ht)

/-- a comment and a literal with a quote, a parenthesis and a line feed -/
theorem read_render_of_readAll_literal :
    readAll "(p\"\\\";)\n\"?X);c\n q" = .ok [app "p" [atom "\"\\\";)\n\"", atom "?X"], atom "q"] ∧
      (∀ t ∈ [app "p" [atom "\"\\\";)\n\"", atom "?X"], atom "q"], read t.render = .ok t) ∧
      IsGap "\t\n" ∧
      readAll (renderAll (fun _ => "\t\n") [app "p" [atom "\"\\\";)\n\"", atom "?X"], atom "q"]) =
        .ok [app "p" [atom "\"\\\";)\n\"", atom "?X"], atom "q"] := by
  have h : readAll "(p\"\\\";)\n\"?X);c\n q" =
      .ok [app "p" [atom "\"\\\";)\n\"", atom "?X"], atom "q"] := by cbv
  have hgap : IsGap "\t\n" := ⟨by decide, List.all_eq_true.mp (by decide)⟩
  obtain ⟨heach, hall⟩ := read_render_of_readAll h
  exact ⟨h, heach, hgap, hall (fun _ => "\t\n") fun _ => hgap⟩

end Term

end OntologyPrep
