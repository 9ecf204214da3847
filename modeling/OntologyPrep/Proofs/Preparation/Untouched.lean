import Mathlib.Tactic
import OntologyPrep.Proofs.Preparation.Verdict
import OntologyPrep.Proofs.Term.Variables

/-!
# Queries in which nothing is to be done

A term is idle if no applied variable is to be instantiated in it and no row variable to be written out.
It is its own only candidate (`Term.candidates_of_isIdle`), so that a query passes it on with its
quantified formulas tidied, or drops it for its argument counts, and draws no name
(`Formula.prepare_of_isIdle`).

Tidying rebuilds the list of names of every quantified formula from the atoms in it:

* `Term.checkArity_tidyBinders`      argument counts do not see that;
* `Term.tidyBinders_eq_self_iff`     it changes nothing exactly if the lists have nothing but atoms;
* `Formula.prepare_eq_derive_iff`    so that just then an idle query comes out as it went in;
* `Formula.not_untouched`            and one with another entry in a list of names does not.
-/

namespace OntologyPrep

/-- the entries are a list of nothing but the bound names -/
def Binder.IsTidy (b : Binder) : Prop := b.entries = .list (b.names.map .atom)

/-! ## tidying -/

namespace Term

/-- making terms of the elements keeps a list from being a quantified formula, if atoms stay what they
are and lists stay lists -/
theorem binder?_map_eq_none {f : Term → Term} (hatom : ∀ a, f (.atom a) = .atom a)
    (hlist : ∀ t, (f t).isList = t.isList) {xs : List Term} (h : (list xs).binder? = none) :
    (list (xs.map f)).binder? = none := by
  rw [Option.eq_none_iff_forall_ne_some]
  intro b hb
  have hxs : xs.map f = [.atom b.quantifier.name, b.entries, b.body] :=
    list.inj (binder?_eq_some_iff.mp hb)
  obtain ⟨x, _, rfl, hx, hxs⟩ := List.map_eq_cons_iff.mp hxs
  obtain ⟨entries, _, rfl, -, hxs⟩ := List.map_eq_cons_iff.mp hxs
  obtain ⟨body, _, rfl, -, hxs⟩ := List.map_eq_cons_iff.mp hxs
  obtain rfl := List.map_eq_nil_iff.mp hxs
  have hhead : x = .atom b.quantifier.name := by
    cases x with
    | atom a => rw [← hx, hatom]
    | list ys =>
      have hys := hlist (.list ys)
      rw [hx] at hys
      cases hys
  have hsome : (list [x, entries, body]).binder? = some ⟨b.quantifier, entries, body⟩ :=
    hhead ▸ binder?_toTerm ⟨b.quantifier, entries, body⟩
  rw [hsome] at h
  cases h

theorem tidyBinders_atom (a : String) : (atom a).tidyBinders = .atom a := by rw [tidyBinders]

theorem tidyBinders_toTerm (b : Binder) :
    b.toTerm.tidyBinders = quantified b.quantifier.name b.names b.body.tidyBinders := by
  have h := binder?_toTerm b
  rw [Binder.toTerm] at h ⊢
  rw [tidyBinders]
  split <;> simp_all

theorem tidyBinders_list {xs : List Term} (h : (list xs).binder? = none) :
    (list xs).tidyBinders = .list (xs.map tidyBinders) := by
  rw [tidyBinders]
  split <;> simp_all

theorem isList_tidyBinders (t : Term) : t.tidyBinders.isList = t.isList := by
  cases t using binderInduction with
  | atom a => rw [tidyBinders_atom]
  | binder b => rw [tidyBinders_toTerm]; rfl
  | list xs h => rw [tidyBinders_list h]; rfl

theorem binder?_map_tidyBinders {xs : List Term} (h : (list xs).binder? = none) :
    (list (xs.map tidyBinders)).binder? = none :=
  binder?_map_eq_none tidyBinders_atom isList_tidyBinders h

/-! ## argument counts -/

variable (valence : String → Int)

theorem isRowVariable_tidyBinders (t : Term) : t.tidyBinders.isRowVariable = t.isRowVariable := by
  cases t with
  | atom a => rw [tidyBinders_atom]
  | list xs =>
    have h := isList_tidyBinders (.list xs)
    cases htidy : (list xs).tidyBinders with
    | atom a => rw [htidy] at h; cases h
    | list ys => rfl

theorem checkApplication_map_tidyBinders (xs : List Term) :
    checkApplication valence (xs.map tidyBinders) = checkApplication valence xs := by
  match xs with
  | [] => rfl
  | .atom relation :: args =>
    have hrows : (args.map tidyBinders).any isRowVariable = args.any isRowVariable := by
      rw [List.any_map]
      exact congrArg args.any (funext isRowVariable_tidyBinders)
    rw [List.map_cons, tidyBinders_atom, checkApplication, checkApplication, hrows, List.length_map]
  | .list ys :: args =>
    have h := isList_tidyBinders (.list ys)
    rw [List.map_cons]
    cases htidy : (list ys).tidyBinders with
    | atom a => rw [htidy] at h; cases h
    | list zs => rfl

theorem mapM_checkArity_map {f : Term → Term} {xs : List Term}
    (h : ∀ x ∈ xs, (f x).checkArity valence = x.checkArity valence) :
    (xs.map f).mapM (checkArity valence) = xs.mapM (checkArity valence) := by
  induction xs with
  | nil => rfl
  | cons x xs ih =>
    rw [List.map_cons, List.mapM_cons, List.mapM_cons, h x List.mem_cons_self,
      ih fun y hy => h y (List.mem_cons_of_mem _ hy)]

/-- a tidied term has the same fault, or none -/
theorem checkArity_tidyBinders (t : Term) :
    t.tidyBinders.checkArity valence = t.checkArity valence := by
  induction t using binderInduction with
  | atom a => rw [tidyBinders_atom]
  | binder b ih =>
    rw [tidyBinders_toTerm, quantified_eq_toTerm, checkArity_toTerm, checkArity_toTerm, ih]
  | list xs h ih =>
    rw [tidyBinders_list h, checkArity_list valence (binder?_map_tidyBinders h),
      checkArity_list valence h, mapM_checkArity_map valence ih, checkApplication_map_tidyBinders]

/-! ## what tidying changes -/

/-- the quantified formulas in the term, a list of entries not looked into -/
def binderParts : Term → List Binder
  | .atom _ => []
  | .list items =>
    match _h : (Term.list items).binder? with
    | some b => b :: b.body.binderParts
    | none => items.flatMap binderParts
termination_by t => sizeOf t
decreasing_by
  · exact sizeOf_body_lt ‹_›
  · decreasing_tactic

theorem binderParts_atom (a : String) : (atom a).binderParts = [] := by rw [binderParts]

theorem binderParts_toTerm (b : Binder) : b.toTerm.binderParts = b :: b.body.binderParts := by
  have h := binder?_toTerm b
  rw [Binder.toTerm] at h ⊢
  rw [binderParts]
  split <;> simp_all

theorem binderParts_list {xs : List Term} (h : (list xs).binder? = none) :
    (list xs).binderParts = xs.flatMap binderParts := by
  rw [binderParts]
  split <;> simp_all

/-- tidying leaves exactly those terms alone in which every quantified formula is tidy -/
theorem tidyBinders_eq_self_iff {t : Term} : t.tidyBinders = t ↔ ∀ b ∈ t.binderParts, b.IsTidy := by
  induction t using binderInduction with
  | atom a => simp [tidyBinders_atom, binderParts_atom]
  | binder b ih =>
    have hrebuilt : quantified b.quantifier.name b.names b.body.tidyBinders = b.toTerm ↔
        b.IsTidy ∧ b.body.tidyBinders = b.body := by
      rw [quantified, app, Binder.toTerm, list.injEq, List.cons_inj_right, List.cons.injEq,
        List.cons.injEq, Binder.IsTidy]
      simp [eq_comm]
    rw [tidyBinders_toTerm, binderParts_toTerm, List.forall_mem_cons, hrebuilt, ih]
  | list xs h ih =>
    have helements : xs.map tidyBinders = xs.map id ↔ ∀ x ∈ xs, x.tidyBinders = x := List.map_inj_left
    rw [List.map_id] at helements
    rw [tidyBinders_list h, binderParts_list h, list.injEq, helements, List.forall_mem_flatMap]
    exact forall₂_congr ih

/-! ## nothing to be done -/

/-- no applied variable is to be instantiated in the term, and no row variable to be written out -/
structure IsIdle (kb : KnowledgeBase) (settings : Settings) (t : Term) : Prop where
  applied : settings.holdsPrefix = true ∨ t.hasPredicateVariable (t.predicateVariables kb) = false
  rows : t.rowVariables = [] ∨ t.containsQuoted = true

variable {kb : KnowledgeBase} {settings : Settings} {t : Term}

theorem IsIdle.outcome (h : t.IsIdle kb settings) :
    Candidates.outcome kb settings t = pure .notApplicable := by
  unfold Candidates.outcome
  rcases h.applied with hprefix | hnone
  · rw [if_pos hprefix]
  · split
    · rfl
    · rw [instantiatePredicates, hnone]
      rfl

theorem IsIdle.expandRows (h : t.IsIdle kb settings) (budget : Option Nat) :
    t.expandRows kb budget = pure ([t], false) := by
  have hnothing : (t.rowVariables.isEmpty || t.containsQuoted) = true := by
    rcases h.rows with hrows | hquoted
    · rw [hrows]
      rfl
    · rw [hquoted, Bool.or_true]
  rw [Term.expandRows, if_pos hnothing]

/-- a round gives an idle term back, and draws no name -/
theorem IsIdle.round (h : t.IsIdle kb settings) (hlimit : 1 ≤ settings.expansionLimit) (s : Supply) :
    Candidates.round kb settings [t] s = (⟨[t], false, []⟩, s) := by
  have hroom : ∀ problems, Candidates.room ⟨[], false, problems⟩ settings.expansionLimit ≠ 0 := by
    intro problems
    rw [Candidates.room, List.length_nil]
    omega
  have hinstantiated : Candidates.instantiateEach kb settings [t] .empty s = (⟨[t], false, []⟩, s) := by
    rw [Candidates.instantiateEach, Candidates.empty, if_neg (hroom []), h.outcome]
    rfl
  have hexpanded : Candidates.expandEach kb settings.expansionLimit [t] ⟨[], false, []⟩ s =
      (⟨[t], false, []⟩, s) := by
    rw [Candidates.expandEach, if_neg (hroom []), h.expandRows]
    rfl
  rw [Candidates.round, State.bind_apply, hinstantiated]
  exact hexpanded

/-- an idle term is its own only candidate, and no name is drawn for it -/
theorem candidates_of_isIdle (h : t.IsIdle kb settings) (hlimit : 1 ≤ settings.expansionLimit)
    (s : Supply) : t.candidates kb settings s = (([t], []), s) := by
  have hsame : Distinct.sameElements [t] [t] = true := by simp [Distinct.sameElements]
  rw [candidates, Candidates.rounds, State.bind_apply, h.round hlimit]
  simp [hsame]

/-! ## characters -/

theorem mapAtoms_eq_self {f : String → String} {t : Term} (h : ∀ a ∈ t.atoms, f a = a) :
    t.mapAtoms f = t := by
  match t with
  | .atom a => rw [mapAtoms_atom, h a (by simp)]
  | .list xs =>
    have helements : ∀ x ∈ xs, x.mapAtoms f = x := fun x hx =>
      mapAtoms_eq_self fun a ha => h a (by simpa using ⟨x, hx, ha⟩)
    rw [mapAtoms_list, List.map_congr_left helements, List.map_id']

theorem mem_atoms_of_mem_atoms_tidyBinders {t : Term} {a : String} (h : a ∈ t.tidyBinders.atoms) :
    a ∈ t.atoms := by
  induction t using binderInduction with
  | atom b => rwa [tidyBinders_atom] at h
  | binder b ih =>
    rw [tidyBinders_toTerm, quantified, app] at h
    simp only [atoms_list, List.flatMap_cons, List.flatMap_nil, atoms_atom, List.append_nil,
      List.mem_append, List.mem_singleton, List.flatMap_map, List.flatMap_singleton'] at h
    rcases h with rfl | hname | hbody
    · simp [Binder.toTerm]
    · exact mem_atoms_of_mem_names hname
    · exact mem_atoms_of_mem_body (ih hbody)
  | list xs hb ih =>
    rw [tidyBinders_list hb, atoms_list, List.flatMap_map, List.mem_flatMap] at h
    obtain ⟨x, hx, ha⟩ := h
    rw [atoms_list]
    exact List.mem_flatMap.mpr ⟨x, hx, ih x hx ha⟩

theorem isAscii_tidyBinders {t : Term} (h : t.isAscii = true) : t.tidyBinders.isAscii = true :=
  List.all_eq_true.mpr fun a ha =>
    List.all_eq_true.mp h a (mem_atoms_of_mem_atoms_tidyBinders ha)

end Term

theorem Settings.toAscii_of_isAscii (settings : Settings) {a : String} (h : Name.isAscii a = true) :
    settings.toAscii a = a := by
  have hchars : ∀ c ∈ a.toList, (if c.toNat < 128 then [c] else settings.placeholder.toList) = [c] :=
    fun c hc => if_pos (of_decide_eq_true (List.all_eq_true.mp h c hc))
  rw [toAscii, List.flatMap_def, List.map_congr_left hchars, ← List.flatMap_def,
    List.flatMap_singleton', String.ofList_toList]

/-! ## idle queries -/

namespace Term

variable {kb : KnowledgeBase} {settings : Settings} {t : Term}

theorem mapAtoms_toAscii (h : t.isAscii = true) (settings : Settings) :
    t.mapAtoms settings.toAscii = t :=
  mapAtoms_eq_self fun a ha => settings.toAscii_of_isAscii (List.all_eq_true.mp h a ha)

/-- the argument counts of the term, if they matter -/
def arityVerdict (kb : KnowledgeBase) (settings : Settings) (t : Term) : Except ArityError Unit :=
  if settings.checkArity then t.checkArity kb.valence else .ok ()

theorem unsuitable?_tidyBinders (h : t.isAscii = true) :
    t.tidyBinders.unsuitable? kb settings true =
      match t.arityVerdict kb settings with
      | .ok () => none
      | .error e => some (.wrongArity t.tidyBinders e) := by
  have hchars : (!t.tidyBinders.isAscii) = false := by rw [isAscii_tidyBinders h]; rfl
  rw [unsuitable?, hchars, checkArity_tidyBinders, arityVerdict]
  cases settings.checkArity with
  | true => cases t.checkArity kb.valence <;> rfl
  | false => rfl

/-- what is passed on for an idle query is the query tidied, if anything; nothing is drawn and nothing
remembered -/
theorem prepare_of_isIdle (hidle : t.IsIdle kb settings) (hascii : t.isAscii = true)
    (hlimit : 1 ≤ settings.expansionLimit) (σ : Session) :
    t.prepare kb settings true σ =
      (match t.arityVerdict kb settings with
        | .ok () => ⟨[t.tidyBinders], []⟩
        | .error e => ⟨[], [.wrongArity t.tidyBinders e]⟩, σ) := by
  have hfinals : finals kb settings true [t] σ = ([t.tidyBinders], σ) := by
    rw [finals, facts, if_pos rfl, State.pure_apply, List.append_nil, State.mapM_cons_apply,
      State.mapM_nil_apply, Session.typing, finalForm, if_neg (by simp)]
    rfl
  rw [prepare_eq, found, mapAtoms_toAscii hascii, candidates_of_isIdle hidle hlimit, judge]
  simp only [hfinals, List.foldl_cons, List.foldl_nil, Prepared.add, unsuitable?_tidyBinders hascii]
  cases t.arityVerdict kb settings <;> rfl

end Term

namespace Formula

variable {kb : KnowledgeBase} {settings : Settings} {f : Formula} {t : Term}

/-- An idle query of ASCII characters comes out tidied if its argument counts are right or do not
matter, and else is dropped with one report of the fault.  Either way no name is drawn and nothing is
remembered. -/
theorem prepare_of_isIdle (hbalanced : Balance.isBalanced f.text = true) (hterm : f.term = some t)
    (hidle : t.IsIdle kb settings) (hascii : t.isAscii = true) (hlimit : 1 ≤ settings.expansionLimit)
    (σ : Session) :
    f.prepare kb settings true σ =
      (match t.arityVerdict kb settings with
        | .ok () => ([f.derive t.tidyBinders], f)
        | .error e => ([], f.tell (.wrongArity t.tidyBinders e)), σ) := by
  rw [prepare_eq, prepareText_of_term hbalanced hterm, Term.prepare_of_isIdle hidle hascii hlimit]
  cases t.arityVerdict kb settings <;> rfl

theorem derive_inj {t u : Term} : f.derive t = f.derive u ↔ t = u :=
  ⟨fun h => Option.some.inj (congrArg Formula.term h), fun h => h ▸ rfl⟩

/-- an idle query that is passed on comes out as it went in exactly if all its lists of names are
tidy -/
theorem prepare_eq_derive_iff (hbalanced : Balance.isBalanced f.text = true)
    (hterm : f.term = some t) (hidle : t.IsIdle kb settings) (hascii : t.isAscii = true)
    (hlimit : 1 ≤ settings.expansionLimit) (harity : t.arityVerdict kb settings = .ok ())
    (σ : Session) :
    (f.prepare kb settings true σ).1.1 = [f.derive t] ↔ ∀ b ∈ t.binderParts, b.IsTidy := by
  rw [prepare_of_isIdle hbalanced hterm hidle hascii hlimit, harity, ← Term.tidyBinders_eq_self_iff]
  show [f.derive t.tidyBinders] = [f.derive t] ↔ _
  rw [List.singleton_inj, derive_inj]

/-- a query with a typed entry in its list of names -/
def typedEntry : Binder :=
  ⟨.all, .list [.list [.atom "?X", .atom "Human"]], .app "p" [.atom "?X"]⟩

/-- A query in which nothing is to be instantiated or written out need not come out as it went in: of a
typed entry in a list of names nothing is left. -/
theorem not_untouched : ¬ ∀ (kb : KnowledgeBase) (settings : Settings) (f : Formula) (t : Term)
    (σ : Session), 1 ≤ settings.expansionLimit → Balance.isBalanced f.text = true →
      f.term = some t → t.isAscii = true → t.rowVariables = [] →
      ((t.predicateVariables kb).toList.any fun v => v.2.isHead) = false →
      t.checkArity kb.valence = .ok () → (f.prepare kb settings true σ).1.1 = [f.derive t] := by
  intro h
  have hbalanced : Balance.isBalanced (ofText "(forall ((?X Human)) (p ?X))").text = true := by cbv
  have hterm : (ofText "(forall ((?X Human)) (p ?X))").term = some typedEntry.toTerm := by cbv
  have hascii : typedEntry.toTerm.isAscii = true := by cbv
  have hrows : typedEntry.toTerm.rowVariables = [] := by cbv
  have happlied : ((typedEntry.toTerm.predicateVariables .empty).toList.any fun v => v.2.isHead) =
      false := by cbv
  have harity : typedEntry.toTerm.checkArity (KnowledgeBase.valence .empty) = .ok () := by cbv
  have hidle : typedEntry.toTerm.IsIdle .empty {} :=
    ⟨.inr (by rw [Term.hasPredicateVariable, happlied, Bool.and_false]), .inl hrows⟩
  have huntouched := h .empty {} _ _ (.start ⟨0⟩) (by decide) hbalanced hterm hascii hrows happlied
    harity
  have htidy := (prepare_eq_derive_iff hbalanced hterm hidle hascii (by decide) harity _).mp huntouched
    typedEntry (by rw [Term.binderParts_toTerm]; exact List.mem_cons_self)
  cases htidy

end Formula

end OntologyPrep
