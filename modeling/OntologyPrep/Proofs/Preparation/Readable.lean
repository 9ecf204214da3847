import OntologyPrep.Proofs.Fresh.Drawn
import OntologyPrep.Proofs.Preparation.Vocabulary
import OntologyPrep.Proofs.Text.Rendering

/-!
# Reading what is passed on

Readable atoms stay readable with a placeholder for foreign characters, with `+` taken off, and in the
names of the variables of a row.  Hence they are a vocabulary for every knowledge base that is read from
a text, unless an argument is declared to be of the class `+`, of which nothing is left without the `+`
(`KnowledgeBase.vocabulary_isReadable`).

`Formula.read_prepareAll` concludes that all formulas passed on can be read back from their texts, and
`Formula.not_alwaysReadBack` that with such a declaration some cannot.
-/

namespace OntologyPrep

/-- letters, digits and underscores, at least one -/
def IsPlaceholder (s : String) : Prop :=
  s ≠ "" ∧ ∀ c ∈ s.toList, c.isAlphanum = true ∨ c = '_'

/-- a character that means nothing to the scanner does not end a word -/
theorem Scanner.isWordChar_of_ne {c : Char} (h : ∀ d ∈ [' ', '\t', '\n', '\x0c', '\r', '(', ')', ';',
    '\x22'], c ≠ d) : isWordChar c = true := by
  simp only [List.forall_mem_cons, List.not_mem_nil, false_implies, implies_true, and_true] at h
  simp [isWordChar, isBlank, h]

/-- a letter, a digit or an underscore is none of the characters that mean something to the scanner -/
theorem ne_of_isAlphanum {c : Char} (h : c.isAlphanum = true ∨ c = '_') : ∀ d ∈ [' ', '\t', '\n',
    '\x0c', '\r', '(', ')', ';', '\x22', '\\'], c ≠ d := by
  intro d hd hcd
  rw [hcd] at h
  have hnone : ∀ d ∈ [' ', '\t', '\n', '\x0c', '\r', '(', ')', ';', '\x22', '\\'],
      ¬ (d.isAlphanum = true ∨ d = '_') := by simp
  exact hnone d hd h

theorem Scanner.isWordChar_of_isAlphanum {c : Char} (h : c.isAlphanum = true ∨ c = '_') :
    isWordChar c = true :=
  isWordChar_of_ne fun d hd => ne_of_isAlphanum h d (List.mem_append_left ['\\'] hd)

/-! ## literals -/

namespace EndsLiteral

variable {cs ds : List Char}

/-- letters, digits and underscores may stand anywhere in a literal -/
theorem append (hds : ∀ c ∈ ds, c.isAlphanum = true ∨ c = '_') (h : EndsLiteral cs) :
    EndsLiteral (ds ++ cs) := by
  induction ds with
  | nil => exact h
  | cons c ds ih =>
    obtain ⟨hc, hds⟩ := List.forall_mem_cons.mp hds
    exact .plain (ne_of_isAlphanum hc _ (by decide)) (ne_of_isAlphanum hc _ (by decide)) (ih hds)

theorem getLast? (h : EndsLiteral cs) : cs.getLast? = some '\x22' := by
  induction h with
  | quote => rfl
  | plain _ _ hcs ih => rw [List.getLast?_cons, ih]; rfl
  | escaped hcs ih => rw [List.getLast?_cons, List.getLast?_cons, ih]; rfl

/-- each character may be replaced by letters, digits and underscores, but for quotes and
backslashes -/
theorem flatMap {f : Char → List Char} (hf : ∀ c, f c = [c] ∨ c ≠ '\x22' ∧ c ≠ '\\' ∧ f c ≠ [] ∧
    ∀ d ∈ f c, d.isAlphanum = true ∨ d = '_') (h : EndsLiteral cs) : EndsLiteral (cs.flatMap f) := by
  have hkept : ∀ c, c = '\x22' ∨ c = '\\' → f c = [c] := fun c hc =>
    (hf c).resolve_right fun hne => hc.elim hne.1 hne.2.1
  induction h with
  | quote =>
    rw [List.flatMap_singleton, hkept _ (.inl rfl)]
    exact .quote
  | @plain c cs hbackslash hquote _ ih =>
    rw [List.flatMap_cons]
    rcases hf c with hc | ⟨_, _, _, hword⟩
    · rw [hc]
      exact .plain hbackslash hquote ih
    · exact append hword ih
  | @escaped c cs _ ih =>
    rw [List.flatMap_cons, List.flatMap_cons, hkept _ (.inr rfl), List.singleton_append]
    rcases hf c with hc | ⟨_, _, hne, hword⟩
    · rw [hc]
      exact .escaped ih
    · -- the backslash protects the first character of the replacement
      cases hfc : f c with
      | nil => exact absurd hfc hne
      | cons d ds =>
        rw [hfc] at hword
        exact .escaped (append (List.forall_mem_cons.mp hword).2 ih)

end EndsLiteral

/-! ## readable atoms -/

namespace Name

variable {a : String}

theorem isReadable_of_all (hne : a.toList ≠ []) (h : a.toList.all Scanner.isWordChar = true) :
    IsReadable a := .inl ⟨hne, List.all_eq_true.mp h⟩

/-- what is replaced in a readable atom leaves it readable -/
theorem IsReadable.flatMap {f : Char → List Char} (hf : ∀ c, f c = [c] ∨ c ≠ '\x22' ∧ c ≠ '\\' ∧
    f c ≠ [] ∧ ∀ d ∈ f c, d.isAlphanum = true ∨ d = '_') (h : IsReadable a) :
    IsReadable (String.ofList (a.toList.flatMap f)) := by
  rcases h with ⟨hne, hall⟩ | ⟨cs, hcs, hends⟩
  · refine .inl ⟨fun hnil => ?_, fun d hd => ?_⟩
    · rw [String.toList_ofList, List.flatMap_eq_nil_iff] at hnil
      obtain ⟨c, hc⟩ := List.exists_mem_of_ne_nil _ hne
      rcases hf c with hkept | ⟨_, _, hfc, _⟩
      · have hempty := hnil c hc
        rw [hkept] at hempty
        cases hempty
      · exact hfc (hnil c hc)
    · rw [String.toList_ofList] at hd
      obtain ⟨c, hc, hd⟩ := List.mem_flatMap.mp hd
      rcases hf c with hkept | ⟨_, _, _, hword⟩
      · rw [hkept, List.mem_singleton] at hd
        exact hd ▸ hall c hc
      · exact Scanner.isWordChar_of_isAlphanum (hword d hd)
  · refine .inr ⟨cs.flatMap f, ?_, hends.flatMap hf⟩
    rw [String.toList_ofList, hcs, List.flatMap_cons,
      (hf '\x22').resolve_right fun hne => hne.1 rfl, List.singleton_append]

/-- a readable atom has a readable rest without a `+` at its end, if it has any -/
theorem isReadable_of_append (h : IsReadable (a ++ "+")) (hne : a ≠ "") : IsReadable a := by
  rcases h with ⟨-, hall⟩ | ⟨cs, hcs, hends⟩
  · refine .inl ⟨fun hnil => hne (String.toList_eq_nil_iff.mp hnil), fun c hc => hall c ?_⟩
    rw [String.toList_append]
    exact List.mem_append_left _ hc
  · -- a literal has the quote at its end
    have hlast : (a ++ "+").toList.getLast? = some '+' := by
      rw [String.toList_append]
      exact List.getLast?_append_of_ne_nil _ (by decide)
    rw [hcs, List.getLast?_cons, hends.getLast?] at hlast
    cases hlast

/-- a variable of a row with another sigil and a number behind it -/
theorem isReadable_rowStem {row : String} (h : IsReadable row) (hvar : isRowVariable row = true)
    (s : Supply) : IsReadable (rowStem row ++ s.index) := by
  have hword : IsWord row := by
    rcases h with hword | ⟨cs, hcs, -⟩
    · exact hword
    · rw [isRowVariable, hcs] at hvar
      cases hvar
  refine .inl ⟨by simp [rowStem], fun c hc => ?_⟩
  rw [String.toList_append, rowStem, String.toList_append, String.toList_ofList,
    List.append_assoc] at hc
  rcases List.mem_append.mp hc with hc | hc
  · have hsigil : c = '?' := List.mem_singleton.mp hc
    rw [hsigil]
    decide
  · rcases List.mem_append.mp hc with hc | hc
    · rw [String.toList_ofList] at hc
      exact hword.2 c (List.mem_of_mem_drop hc)
    · refine Scanner.isWordChar_of_isAlphanum (.inl ?_)
      rw [Char.isAlphanum, Supply.isDigit_of_mem_toString hc, Bool.or_true]

theorem isReadable_of_isOperator (h : isOperator a = true) : IsReadable a := by
  obtain ⟨o, ho⟩ := Option.isSome_iff_exists.mp h
  obtain rfl := Operator.name_of_ofName? ho
  rcases o with _ | _ | _ | _ | _ | (_ | _)
  all_goals exact isReadable_of_all (by decide) (by decide)

end Name

theorem Settings.isReadable_toAscii {settings : Settings}
    (hplaceholder : IsPlaceholder settings.placeholder) {a : String} (h : Name.IsReadable a) :
    Name.IsReadable (settings.toAscii a) := by
  obtain ⟨hne, hword⟩ := hplaceholder
  refine h.flatMap fun c => ?_
  split
  · exact .inl rfl
  · next hc =>
    refine .inr ⟨?_, ?_, fun hnil => hne (String.toList_eq_nil_iff.mp hnil), hword⟩
    · intro hquote
      exact hc (by rw [hquote]; decide)
    · intro hbackslash
      exact hc (by rw [hbackslash]; decide)

namespace Term

/-- operators and truth constants are readable, too -/
theorem over_isReadable {t : Term} : t.Over Name.IsReadable ↔ t.Readable := by
  constructor
  · intro h a ha
    rcases h a ha with hreadable | hoperator | rfl | rfl
    · exact hreadable
    · exact Name.isReadable_of_isOperator hoperator
    · exact Name.isReadable_of_all (by decide) (by decide)
    · exact Name.isReadable_of_all (by decide) (by decide)
  · exact fun h a ha => .inl (h a ha)

theorem readable_mapAtoms {f : String → String} (hf : ∀ a, Name.IsReadable a → Name.IsReadable (f a))
    {t : Term} (h : t.Readable) : (t.mapAtoms f).Readable := by
  match t with
  | .atom a =>
    rw [mapAtoms_atom]
    exact readable_atom.mpr (hf a (readable_atom.mp h))
  | .list items =>
    rw [mapAtoms_list]
    refine readable_list.mpr (List.forall_mem_map.mpr fun x hx => ?_)
    exact readable_mapAtoms hf (readable_list.mp h x hx)

theorem readable_of_read {text : String} {t : Term} (h : read text = .ok t) : t.Readable :=
  readable_of_readAll (read_eq_ok_iff_readAll.mp h) t List.mem_cons_self

end Term

/-! ## a knowledge base that is read from a text -/

namespace KnowledgeBase

variable {kb : KnowledgeBase} {text : String}

theorem over_isReadable (h : ofText text = .ok kb) : kb.Over Name.IsReadable := by
  obtain ⟨ts, hread, rfl⟩ : ∃ ts, Term.readAll text = .ok ts ∧ empty.tellAll ts = kb := by
    rw [ofText] at h
    cases hread : Term.readAll text with
    | error e => rw [hread] at h; cases h
    | ok ts => rw [hread] at h; exact ⟨ts, rfl, Except.ok.inj h⟩
  refine ⟨faithful_tellAll ts, fun t ht => Term.over_isReadable.mpr ?_⟩
  exact Term.readable_of_readAll hread t (mem_of_told_tellAll ht)

/-- readable atoms are a vocabulary, unless nothing is left of a declared class -/
theorem vocabulary_isReadable (h : ofText text = .ok kb)
    (hplus : ∀ relation position, kb.argType? relation position ≠ some "+") :
    Vocabulary Name.IsReadable kb where
  told := over_isReadable h
  row row s hrow hvar := Name.isReadable_rowStem hrow hvar s
  instanceName := Name.isReadable_of_all (by decide) (by decide)
  subclassName := Name.isReadable_of_all (by decide) (by decide)
  setOrClass := Name.isReadable_of_all (by decide) (by decide)
  type relation position type htype := by
    have hkb := over_isReadable h
    obtain ⟨t, index, cls, ht, hatom, hcls⟩ := exists_of_argType? hkb.faithful htype
    have hreadable := hkb.atomAt? ht hatom
    rw [TypeOver]
    rcases hcls with rfl | rfl
    · cases hbase : subclassBase? type with
      | none => exact hreadable
      | some base =>
        rw [eq_of_subclassBase? hbase, Term.over_isReadable, Term.readable_atom] at hreadable
        refine Term.over_atom (Name.isReadable_of_append hreadable fun hempty => ?_)
        have hbare : base = "" := hempty
        refine hplus relation position (htype.trans ?_)
        rw [eq_of_subclassBase? hbase, hbare]
        rfl
    · rw [subclassBase?_append]
      exact hreadable

/-- no argument is declared to be of the class `+` if no told statement has the atom -/
theorem argType?_ne_plus (hkb : kb.Over Name.IsReadable) (h : ∀ t, kb.Told t → "+" ∉ t.atoms)
    (relation : String) (position : Nat) : kb.argType? relation position ≠ some "+" := by
  intro htype
  obtain ⟨t, index, cls, ht, hatom, hcls⟩ := exists_of_argType? hkb.faithful htype
  rcases hcls with rfl | hcls
  · exact h t ht (Term.mem_atoms_of_atomAt? hatom)
  · -- nothing stands before the `+`, but a told atom has a character
    have hempty : cls = "" := by
      have hbase : subclassBase? "+" = some cls := by rw [hcls, subclassBase?_append]
      exact (Option.some.inj hbase).symm
    rw [hempty] at hatom
    rcases Term.readable_atom.mp (Term.over_isReadable.mp (hkb.atomAt? ht hatom)) with
      ⟨hne, -⟩ | ⟨cs, hcs, -⟩
    · exact hne rfl
    · cases hcs

end KnowledgeBase

namespace Formula

/-- Every formula that is passed on can be read back from its text, whatever the settings, if the
placeholder is made of letters, digits and underscores and no argument is declared to be of the
class `+`. -/
theorem read_prepareAll {source : String} {kb : KnowledgeBase}
    (hkb : KnowledgeBase.ofText source = .ok kb)
    (hplus : ∀ relation position, kb.argType? relation position ≠ some "+") {settings : Settings}
    (hplaceholder : IsPlaceholder settings.placeholder) (query : Bool) (texts : List String)
    (supply : Supply) :
    ∀ g ∈ (prepareAll kb settings query (texts.map ofText) (.start supply)).1.1,
      ∃ t, g.term = some t ∧ Term.read g.text = .ok t := by
  intro g hg
  have hv := KnowledgeBase.vocabulary_isReadable hkb hplus
  have hgiven : ∀ f ∈ texts.map ofText, ∀ t, f.term = some t →
      (t.mapAtoms settings.toAscii).Over Name.IsReadable := by
    refine List.forall_mem_map.mpr fun text _ t ht => Term.over_isReadable.mpr ?_
    have hread : Term.read text = .ok t := by
      rw [ofText] at ht
      cases hread : Term.read text with
      | error e => rw [hread] at ht; cases ht
      | ok u => rw [hread] at ht; rw [Option.some.inj ht]
    exact Term.readable_mapAtoms (fun a ha => settings.isReadable_toAscii hplaceholder ha)
      (Term.readable_of_read hread)
  obtain ⟨t, htext, hterm, hover⟩ :=
    over_prepareAll settings query hv hgiven TypeCache.holds_empty g hg
  refine ⟨t, hterm, ?_⟩
  rw [htext]
  exact Term.read_render (Term.over_isReadable.mp hover)

/-- a foreign character under a relation with a declared argument -/
theorem read_prepareAll_foreign (query : Bool) :
    ∀ g ∈ (prepareAll (.tellAll .empty [.app "domain" [.atom "r", .atom "1", .atom "C"]])
        { addTypeRestrictions := true } query [ofText "(r \x22é?\x22 ?é)"] (.start ⟨0⟩)).1.1,
      ∃ t, g.term = some t ∧ Term.read g.text = .ok t := by
  have hkb : KnowledgeBase.ofText "(domain r 1 C)" =
      .ok (.tellAll .empty [.app "domain" [.atom "r", .atom "1", .atom "C"]]) := by cbv
  refine read_prepareAll hkb (KnowledgeBase.argType?_ne_plus (KnowledgeBase.over_isReadable hkb) ?_)
    ⟨by decide, by simp⟩ query ["(r \x22é?\x22 ?é)"] ⟨0⟩
  intro t ht
  rw [List.mem_singleton.mp (KnowledgeBase.mem_of_told_tellAll ht)]
  simp [Term.app]

/-- every formula that is passed on can be read back from its text -/
def AlwaysReadBack : Prop :=
  ∀ source kb, KnowledgeBase.ofText source = .ok kb → ∀ settings : Settings,
    IsPlaceholder settings.placeholder → ∀ (query : Bool) (text : String) (supply : Supply),
    ∀ g ∈ ((ofText text).prepare kb settings query (.start supply)).1.1,
      ∃ t, g.term = some t ∧ Term.read g.text = .ok t

/-- a final form that nothing is wrong with is passed on -/
theorem mem_prepare {kb : KnowledgeBase} {settings : Settings} {query : Bool} {f : Formula}
    {t u : Term} {σ : Session} {s : Supply} (hbalanced : Balance.isBalanced f.text = true)
    (hterm : f.term = some t)
    (hsupply : ((t.mapAtoms settings.toAscii).candidates kb settings σ.supply).2 = s)
    (hfinal : u ∈ (Term.finals kb settings query (t.found kb settings σ).1 ⟨s, σ.cache⟩).1)
    (hsuitable : u.unsuitable? kb settings query = none) :
    f.derive u ∈ (f.prepare kb settings query σ).1.1 := by
  rw [prepare_eq, prepareText_of_term hbalanced hterm, Term.prepare_eq, hsupply]
  refine List.mem_map_of_mem ?_
  rw [Term.judge_fst]
  exact List.mem_filter.mpr ⟨hfinal, by rw [hsuitable]; rfl⟩

/-- the argument of `r` is declared to be of the class `+` -/
def plusDeclared : KnowledgeBase :=
  .tellAll .empty [.app "domain" [.atom "r", .atom "1", .atom "+"]]

/-- types become guards, applied variables and numbers of arguments are let alone -/
def guardsOnly : Settings := { addTypeRestrictions := true, holdsPrefix := true, checkArity := false }

/-- `r` of all subclasses -/
def ofSubclasses (guard : List Term) : Term :=
  .quantified "forall" ["?X"] (.implies (.app "subclass" guard) (.app "r" [.atom "?X"]))

/-- nothing is left of the declared class `+` for the guard of a variable, and no reader finds an empty
atom -/
theorem not_alwaysReadBack : ¬ AlwaysReadBack := by
  intro h
  have hkb : KnowledgeBase.ofText "(domain r 1 +)" = .ok plusDeclared := by cbv
  have hfinals : (Term.finals plusDeclared guardsOnly false ((Term.app "r" [.atom "?X"]).found
      plusDeclared guardsOnly (.start ⟨0⟩)).1 ⟨⟨0⟩, (Session.start ⟨0⟩).cache⟩).1 =
        [ofSubclasses [.atom "?X", .atom ""]] := by cbv
  have hsuitable : (ofSubclasses [.atom "?X", .atom ""]).unsuitable? plusDeclared guardsOnly false =
      none := by
    have hascii : (ofSubclasses [.atom "?X", .atom ""]).isAscii = true := by cbv
    have hhead : (ofSubclasses [.atom "?X", .atom ""]).hasOperatorHead = true := by cbv
    simp [Term.unsuitable?, hascii, hhead, guardsOnly]
  have hpassed := mem_prepare (f := ofText "(r ?X)") (t := .app "r" [.atom "?X"])
    (σ := .start ⟨0⟩) (s := ⟨0⟩) (by cbv) (by cbv) (by cbv)
    (hfinals ▸ List.mem_singleton_self _) hsuitable
  obtain ⟨t, hterm, hread⟩ := h _ _ hkb guardsOnly ⟨by decide, by simp [guardsOnly]⟩ false "(r ?X)"
    ⟨0⟩ _ hpassed
  have hfound : Term.read (ofSubclasses [.atom "?X", .atom ""]).render =
      .ok (ofSubclasses [.atom "?X"]) := by cbv
  rw [← Option.some.inj hterm] at hread
  cases hfound.symm.trans hread

end Formula

end OntologyPrep
