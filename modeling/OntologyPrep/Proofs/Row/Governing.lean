import OntologyPrep.Proofs.Row.Applications
import OntologyPrep.Proofs.Row.Bound
import OntologyPrep.Proofs.Row.Shown

/-!
# Which relations govern a row variable

The relations that govern a row variable are read off the clauses, through the links from their variables
to those of the formula.  They are the relations that the formula shows (`Term.showing`) to be applied to
the row variable:

* `ClausalForm.leadsTo_first`, `ClausalForm.leadsTo_second`   a link leads to the row variable exactly if
                                                              it links to a name that does;
* `ClausalForm.showing_ofTerm`                                no step changes what is shown;
* `ClausalForm.governing_shown`                               the result, for row variables that are not
                                                              spelled like a name that the run draws;
* `ClausalForm.not_governing_of_applies`                      an application that no clause shows.
-/

namespace OntologyPrep

/-! ## links -/

namespace RenameMap

variable {m : RenameMap} {row : String}

theorem KeepsKinds.insertAll (h : m.KeepsKinds) {pairs : List (String × String)}
    (hkinds : ∀ p ∈ pairs, Name.isRowVariable p.1 = Name.isRowVariable p.2) :
    (m.insertAll pairs).KeepsKinds := by
  induction pairs generalizing m with
  | nil => exact h
  | cons p pairs ih =>
    obtain ⟨hfirst, hrest⟩ := List.forall_mem_cons.mp hkinds
    exact ih (h.insert hfirst) hrest

theorem leadsTo_of_resolve {a b : String} (ha : a ≠ row) (h : m.resolve a = b) :
    m.leadsTo a row = (b == row) := by
  rw [leadsTo, h, decide_eq_false ha, Bool.false_or]
  rfl

/-- a name that is no row variable leads to none -/
theorem KeepsKinds.leadsTo_eq_false (h : m.KeepsKinds) (hrow : Name.isRowVariable row = true) {a : String}
    (ha : Name.isRowVariable a = false) : m.leadsTo a row = false := by
  refine Bool.eq_false_iff.mpr fun hleads => ?_
  rw [h.isRowVariable_of_leadsTo hrow hleads] at ha
  cases ha

end RenameMap

namespace ClausalForm

open Term

variable {t : Term} {s : Supply} {row : String} {first second : List (String × String)}

/-- no row variable of the formula is spelled like one of the names that the run draws -/
def RowsUndrawn (t : Term) (s : Supply) : Prop :=
  ∀ row ∈ t.rowVariables, ∀ n, 0 < n → n ≤ draws t s → row ≠ "@VAR" ++ (s.after n).index

theorem Linked.not_mem_of_undrawn (h : Linked t s first second) (hundrawn : RowsUndrawn t s)
    (hrow : row ∈ t.rowVariables) : row ∉ first.map Prod.fst ++ second.map Prod.fst := by
  intro hmem
  obtain ⟨stem, hstem, i, hpos, hle, he⟩ := h.drawn row hmem
  have hkind := (mem_rowVariables.mp hrow).2
  have hstem : stem = "@VAR" := by
    simp only [Supply.stems, List.mem_cons, List.not_mem_nil, or_false] at hstem
    rw [he] at hkind
    rcases hstem with rfl | rfl | rfl | rfl
    · simp [Name.isRowVariable] at hkind
    · rfl
    · simp [Name.isRowVariable] at hkind
    · simp [Name.isRowVariable] at hkind
  exact hundrawn row hrow i hpos hle (hstem ▸ he)

theorem Linked.keepsKinds (h : Linked t s first second) : (ofTerm t s).1.links.KeepsKinds := by
  obtain ⟨hfirst, hsecond⟩ := List.forall_mem_append.mp h.kinds
  rw [h.links]
  exact (RenameMap.keepsKinds_empty.insertAll hfirst).insertAll hsecond

/-- the row variables of the normal form are those of the formula -/
theorem mem_rowVariables_of_normal {b : String} (hb : b ∈ (normal t).atoms)
    (hkind : Name.isRowVariable b = true) : b ∈ t.rowVariables := by
  have hover : t.Over (· ∈ t.atoms) := fun a ha => .inl ha
  have hnormal := over_negationsIn (over_implicationsOut (over_equivalencesOut hover))
  exact mem_rowVariables.mpr
    ⟨hnormal.of_isVariable hb (Name.isVariable_of_isRowVariable hkind), hkind⟩

section

variable (h : Linked t s first second) (hundrawn : RowsUndrawn t s) (hrow : row ∈ t.rowVariables)

include h hundrawn hrow

/-- a name of the renamed formula leads to the row variable if it has replaced it -/
theorem leadsTo_first : ∀ p ∈ first, (ofTerm t s).1.links.leadsTo p.1 row = (p.2 == row) := by
  rintro ⟨c, b⟩ hcb
  have hrowkind := (mem_rowVariables.mp hrow).2
  have hkind := h.kinds (c, b) (List.mem_append_left _ hcb)
  have hc : c ∈ first.map Prod.fst ++ second.map Prod.fst :=
    List.mem_append_left _ (List.mem_map_of_mem hcb)
  cases hb : Name.isRowVariable b with
  | false =>
    have hne : b ≠ row := by
      rintro rfl
      rw [hrowkind] at hb
      cases hb
    rw [h.keepsKinds.leadsTo_eq_false hrowkind (hkind.trans hb)]
    exact (beq_eq_false_iff_ne.mpr hne).symm
  | true =>
    -- the old name is a row variable of the formula, so that no link starts from it
    have hout := h.not_mem_of_undrawn hundrawn (mem_rowVariables_of_normal (h.mem_normal _ hcb) hb)
    refine RenameMap.leadsTo_of_resolve (fun he => ?_) ?_
    · exact h.not_mem_of_undrawn hundrawn hrow (he ▸ hc)
    · exact RenameMap.resolve_of_link (h.previous?_first hcb fun he => hout (he ▸ hc))
        (h.previous?_eq_none hout)

/-- a name of the form leads to the row variable if the name that it has replaced does -/
theorem leadsTo_second : ∀ p ∈ second, (ofTerm t s).1.links.leadsTo p.1 row =
    (ofTerm t s).1.links.leadsTo p.2 row := by
  rintro ⟨a, c⟩ hac
  have hrowkind := (mem_rowVariables.mp hrow).2
  have hkind := h.kinds (a, c) (List.mem_append_right _ hac)
  have ha : a ∈ second.map Prod.fst := List.mem_map_of_mem hac
  cases hc : Name.isRowVariable c with
  | false =>
    rw [h.keepsKinds.leadsTo_eq_false hrowkind hc, h.keepsKinds.leadsTo_eq_false hrowkind (hkind.trans hc)]
  | true =>
    have hcfirst := h.mem_first (a, c) hac (Name.isVariable_of_isRowVariable hc)
    obtain ⟨⟨c', b⟩, hcb, rfl⟩ := List.mem_map.mp hcfirst
    have hb : Name.isRowVariable b = true :=
      (h.kinds (c', b) (List.mem_append_left _ hcb)).symm.trans hc
    have hout := h.not_mem_of_undrawn hundrawn (mem_rowVariables_of_normal (h.mem_normal _ hcb) hb)
    have hne : a ≠ c' := fun he => (List.nodup_append.mp h.nodup).2.2 c' hcfirst a ha he.symm
    have hne' : c' ≠ b := fun he => hout (he ▸ List.mem_append_left _ hcfirst)
    rw [leadsTo_first h hundrawn hrow _ hcb]
    refine RenameMap.leadsTo_of_resolve (fun he => ?_) ?_
    · exact h.not_mem_of_undrawn hundrawn hrow (he ▸ List.mem_append_right _ ha)
    · exact RenameMap.resolve_of_links (h.previous?_second hac hne) (h.previous?_first hcb hne')
        (h.previous?_eq_none hout)

end

/-! ## what the form shows -/

/-- the name comes from the row variable -/
def leads (f : ClausalForm) (row a : String) : Bool := f.links.leadsTo a row

variable {r : String}

/-- the form shows of a constant what the formula does -/
theorem showing_ofTerm (hr : Name.IsConstant r) (hskolem : Name.isSkolem r = false)
    (ht : t.IsFormula Nonlogical .full) (hrow : row ∈ t.rowVariables) (hdraws : draws t s < 2 ^ 32)
    (hundrawn : RowsUndrawn t s) :
    (ofTerm t s).1.term.showing r ((ofTerm t s).1.leads row) true ((ofTerm t s).1.leads row) =
      t.showing r (· == row) true (· == row) := by
  obtain ⟨first, second, hlinked⟩ := exists_linked hdraws
  have hfirst := leadsTo_first hlinked hundrawn hrow
  have hsecond := leadsTo_second hlinked hundrawn hrow
  obtain ⟨_, halong⟩ := hlinked.along_first
  -- the formula stays one at each step
  have hself : ∀ u : Term, u.Nonlogical → u.Nonlogical := fun _ h => h
  have hskolemized : ∀ {u : Term} {name symbol : String} {universals : List String}, u.Nonlogical →
      Name.isVariable name = true → Name.isSkolem symbol = true →
      (∀ a ∈ universals, Name.isVariable a = true) →
      (u.substitute name (ofSkolem symbol universals)).Nonlogical := fun hu _ hsymbol hvars =>
    hu.substitute _ (isIndividual_ofSkolem hsymbol hvars).plain
  have hnormal := isFormula_normal hself (nonlogical_atom _) (nonlogical_atom _) ht
  have hrenamed := isFormula_renamed hself (nonlogical_atom _) (nonlogical_atom _) ht Renames.nonlogical s
  have huniversal := isFormula_skolemized hself (nonlogical_atom _) (nonlogical_atom _)
    Renames.nonlogical hskolemized ht s
  have hfree := isFormula_universalsOut hself huniversal
  have hmatrix := (isFormula_disjunctionsIn hself hfree).mono Fragment.matrix_within_normal
  have hlen : ((ofTerm t s).1.term.operands .conj).length = ((matrix t s).operands .conj).length := by
    rw [ofTerm_eq, operands_standardizeApart]
    exact (renameEach_zip _ _ _).1
  have hconjuncts : ∀ p ∈ ((matrix t s).operands .conj).zip ((ofTerm t s).1.term.operands .conj),
      p.2.showing r ((ofTerm t s).1.leads row) true ((ofTerm t s).1.leads row) =
        p.1.showing r ((ofTerm t s).1.leads row) true ((ofTerm t s).1.leads row) := by
    intro p hp
    obtain ⟨_, hconjunct⟩ := hlinked.along_second p hp
    exact hconjunct.showing_eq hr.1 hsecond (hmatrix.operands hself (.inl rfl) _ (List.of_mem_zip hp).1)
      fun a ha => hsecond _ (hconjunct.free a ha)
  calc (ofTerm t s).1.term.showing r ((ofTerm t s).1.leads row) true ((ofTerm t s).1.leads row)
      = .all (((ofTerm t s).1.term.operands .conj).map
          (Term.showing r ((ofTerm t s).1.leads row) true ((ofTerm t s).1.leads row))) :=
        (showing_operands _).symm
    _ = (matrix t s).showing r ((ofTerm t s).1.leads row) true ((ofTerm t s).1.leads row) := by
        rw [map_eq_map_of_zip hlen hconjuncts, showing_operands]
    _ = (skolemized t s).1.showing r ((ofTerm t s).1.leads row) true ((ofTerm t s).1.leads row) := by
        rw [matrix, showing_disjunctionsIn hfree, showing_universalsOut huniversal]
    _ = (renamed t s).1.1.showing r ((ofTerm t s).1.leads row) true ((ofTerm t s).1.leads row) :=
        showing_skolemize hr hskolem (fun _ ha => isVariable_of_mem_freeVariables ha) hrenamed _ _
    _ = (normal t).showing r (· == row) true (· == row) :=
        halong.showing_eq hr.1 hfirst hnormal fun a ha => hfirst _ (halong.free a ha)
    _ = t.showing r (· == row) true (· == row) := by
        rw [normal, showing_negationsIn (isFormula_arrowsOut hself ht), showing_arrowsOut ht]

/-- the governing relations are the constants that some literal applies to the row variable -/
theorem mem_governing_iff {f : ClausalForm} : r ∈ f.governing row ↔ Name.isVariable r = false ∧
    Name.isSkolem r = false ∧ ∃ c ∈ f.clauses, ∃ x ∈ c.literals, x.applies r (f.leads row) = true := by
  rw [mem_governing]
  constructor
  · rintro ⟨u, hu, hhead⟩
    obtain ⟨hmem, hconstant⟩ := List.mem_filter.mp hu
    obtain ⟨x, hx, hu⟩ := List.mem_flatMap.mp hmem
    obtain ⟨c, hc, hx⟩ := List.mem_flatMap.mp hx
    rw [appliesConstant, hhead, Option.any_some, Bool.and_eq_true, Bool.and_eq_true, Bool.not_eq_true',
      Bool.not_eq_true'] at hconstant
    obtain ⟨⟨hvar, hskolem⟩, hargs⟩ := hconstant
    refine ⟨hvar, hskolem, c, hc, x, hx, List.any_eq_true.mpr ⟨u, hu, ?_⟩⟩
    rw [hhead, beq_self_eq_true, Bool.true_and]
    exact hargs
  · rintro ⟨hvar, hskolem, c, hc, x, hx, happlies⟩
    obtain ⟨u, hu, h⟩ := List.any_eq_true.mp happlies
    rw [Bool.and_eq_true, beq_iff_eq] at h
    refine ⟨u, List.mem_filter.mpr ⟨?_, ?_⟩, h.1⟩
    · exact List.mem_flatMap.mpr ⟨x, List.mem_flatMap.mpr ⟨c, hc, hx⟩, hu⟩
    · rw [appliesConstant, h.1, Option.any_some, hvar, hskolem]
      exact h.2

/-- the relations that govern a row variable are those of which the formula shows an application to it -/
theorem mem_governing_iff_showing (ht : t.IsFormula Nonlogical .full) (hrow : row ∈ t.rowVariables)
    (hdraws : draws t s < 2 ^ 32) (hundrawn : RowsUndrawn t s) :
    r ∈ (ofTerm t s).1.governing row ↔ Name.IsConstant r ∧ Name.isSkolem r = false ∧
      t.showing r (· == row) true (· == row) = .shown := by
  have hclausal : (ofTerm t s).1.term.IsClausal Nonlogical :=
    isClausal_ofTerm (fun _ h => h) (nonlogical_atom _) (nonlogical_atom _) Renames.nonlogical
      (fun hu _ hsymbol hvars => hu.substitute _ (isIndividual_ofSkolem hsymbol hvars).plain) ht s
  have hshown : Name.IsConstant r → Name.isSkolem r = false →
      ((∃ c ∈ (ofTerm t s).1.clauses, ∃ x ∈ c.literals,
          x.applies r ((ofTerm t s).1.leads row) = true) ↔
        t.showing r (· == row) true (· == row) = .shown) := by
    intro hr hskolem
    rw [← showing_ofTerm hr hskolem ht hrow hdraws hundrawn, hclausal.showing_eq_shown hr,
      ← applies_clauses hr, List.any_eq_true]
    simp only [List.any_eq_true]
    rfl
  rw [mem_governing_iff]
  constructor
  · rintro ⟨hvar, hskolem, c, hc, x, hx, happlies⟩
    -- no literal applies an operator
    have hr : Name.IsConstant r := by
      refine ⟨hvar, ?_⟩
      obtain ⟨u, hu, h⟩ := List.any_eq_true.mp happlies
      rw [Bool.and_eq_true, beq_iff_eq] at h
      have hop := atomic_clauses (fun _ h => h) (nonlogical_atom _) hclausal c hc x hx u hu
      rw [operator?, h.1, Option.bind_some] at hop
      rw [Name.isOperator, hop]
      rfl
    exact ⟨hr, hskolem, (hshown hr hskolem).mp ⟨c, hc, x, hx, happlies⟩⟩
  · rintro ⟨hr, hskolem, h⟩
    exact ⟨hr.1, hskolem, (hshown hr hskolem).mpr h⟩

/-- The relations that govern a row variable are those of which the formula shows an application to it.
Each of them is applied to the row variable in the formula; and all that are so applied govern it if no
connective of the formula is without parts and no quantifier that binds the row variable speaks of some
value only. -/
theorem governing_shown (t : Term) (ht : t.IsFormula Nonlogical .full) (s : Supply)
    (hdraws : draws t s < 2 ^ 32) (hundrawn : RowsUndrawn t s) (row : String) (hrow : row ∈ t.rowVariables) :
    (∀ r, r ∈ (ofTerm t s).1.governing row ↔ Name.IsConstant r ∧ Name.isSkolem r = false ∧
        t.showing r (· == row) true (· == row) = .shown) ∧
      (∀ r ∈ (ofTerm t s).1.governing row, ∃ u ∈ t.subterms, u.head? = some r ∧ .atom row ∈ u.args) ∧
      (t.Exposes row true → ∀ r, r ∈ (ofTerm t s).1.governing row ↔ Name.IsConstant r ∧
        Name.isSkolem r = false ∧ ∃ u ∈ t.subterms, u.head? = some r ∧ .atom row ∈ u.args) := by
  have hvar := Name.isVariable_of_isRowVariable (mem_rowVariables.mp hrow).2
  have hgoverning : ∀ r, r ∈ (ofTerm t s).1.governing row ↔ Name.IsConstant r ∧ Name.isSkolem r = false ∧
      t.showing r (· == row) true (· == row) = .shown := fun r =>
    mem_governing_iff_showing ht hrow hdraws hundrawn
  refine ⟨hgoverning, fun r hr => ?_, fun hexposes r => ?_⟩
  · obtain ⟨hconstant, -, hshown⟩ := (hgoverning r).mp hr
    exact (applies_iff hvar).mp (applies_of_showing hconstant ht (fun _ h => h) (fun _ h => h) hshown)
  · rw [hgoverning]
    refine and_congr_right fun hconstant => and_congr_right fun _ => ?_
    rw [hexposes.showing_eq hconstant, Showing.ofBool_eq_shown, applies_iff hvar]

theorem rowsUndrawn_of_single {t : Term} (h : t.rowVariables = ["@R"]) (s : Supply) : RowsUndrawn t s := by
  intro row hrow n _ _ he
  rw [h, List.mem_singleton] at hrow
  have hlist := congrArg String.toList (hrow.symm.trans he)
  rw [String.toList_append] at hlist
  cases (List.cons.inj (List.cons.inj hlist).2).1

theorem nonlogical_app {head : String} {args : List Term} (hhead : Name.isOperator head = false)
    (hargs : ∀ x ∈ args, x.Nonlogical) : (app head args).Nonlogical :=
  nonlogical_list (Option.not_isSome_iff_eq_none.mp (Bool.eq_false_iff.mp hhead))
    (List.forall_mem_cons.mpr ⟨nonlogical_atom head, hargs⟩)

/-- a relation and a function applied to a row variable that is bound for all rows -/
def sharedRow : Term := .quantified Quantifier.all.name ["@R"]
  (.implies (.app "p" [.atom "@R"]) (.app "q" [.atom "?X", .app "f" [.atom "@R"]]))

theorem governing_shown_sharedRow : sharedRow.IsFormula Nonlogical .full ∧ draws sharedRow ⟨0⟩ < 2 ^ 32 ∧
    RowsUndrawn sharedRow ⟨0⟩ ∧ "@R" ∈ sharedRow.rowVariables ∧ sharedRow.Exposes "@R" true ∧
    "f" ∈ (ofTerm sharedRow ⟨0⟩).1.governing "@R" ∧ "q" ∉ (ofTerm sharedRow ⟨0⟩).1.governing "@R" := by
  have hp : (Term.app "p" [.atom "@R"]).Nonlogical :=
    nonlogical_app (by decide) (List.forall_mem_singleton.mpr (nonlogical_atom _))
  have hf : (Term.app "f" [.atom "@R"]).Nonlogical :=
    nonlogical_app (by decide) (List.forall_mem_singleton.mpr (nonlogical_atom _))
  have hq : (Term.app "q" [.atom "?X", .app "f" [.atom "@R"]]).Nonlogical := nonlogical_app (by decide)
    (List.forall_mem_cons.mpr ⟨nonlogical_atom _, List.forall_mem_singleton.mpr hf⟩)
  have hform : sharedRow.IsFormula Nonlogical .full :=
    .quantified trivial (by decide) (.implies trivial (.atomic hp) (.atomic hq))
  have hexposes : sharedRow.Exposes "@R" true :=
    .quantified (by decide) (fun _ => rfl) (.implies (.atomic hp) (.atomic hq))
  have hrows : sharedRow.rowVariables = ["@R"] := by cbv
  have hrow : "@R" ∈ sharedRow.rowVariables := hrows ▸ List.mem_cons_self
  have hdraws : draws sharedRow ⟨0⟩ < 2 ^ 32 := by
    have h : draws sharedRow ⟨0⟩ = 4 := by cbv
    rw [h]
    decide
  have hundrawn := rowsUndrawn_of_single hrows ⟨0⟩
  obtain ⟨-, hsound, hexact⟩ :=
    governing_shown sharedRow hform ⟨0⟩ hdraws hundrawn "@R" hrow
  refine ⟨hform, hdraws, hundrawn, hrow, hexposes, (hexact hexposes "f").mpr
    ⟨⟨by decide, by decide⟩, by decide, ?_⟩, fun h => ?_⟩
  · have happlies : sharedRow.applies "f" (· == "@R") = true := by cbv
    exact (applies_iff (by decide)).mp happlies
  · have happlies : sharedRow.applies "q" (· == "@R") = false := by cbv
    rw [(applies_iff (by decide)).mpr (hsound "q" h)] at happlies
    cases happlies

/-- a relation applied to a row variable that a Skolem constant replaces -/
def hiddenRow : Term := .quantified Quantifier.any.name ["@R"] (.app "p" [.atom "@R"])

/-- a relation applied to a row variable beside a formula without clauses -/
def vacuousRow : Term := .disj [.conj [], .app "p" [.atom "@R"]]

/-- a constant that the formula applies to one of its row variables does not govern it -/
structure Hides (t : Term) (s : Supply) (row r : String) : Prop where
  isFormula : t.IsFormula Nonlogical .full
  draws_lt : draws t s < 2 ^ 32
  undrawn : RowsUndrawn t s
  mem_rows : row ∈ t.rowVariables
  constant : Name.IsConstant r
  not_skolem : Name.isSkolem r = false
  applied : ∃ u ∈ t.subterms, u.head? = some r ∧ .atom row ∈ u.args
  not_governing : r ∉ (ofTerm t s).1.governing row

/-- Not every relation that a formula applies to a row variable governs it: a quantifier may speak of some
row only, and a disjunction with a part without clauses has none. -/
theorem not_governing_of_applies : Hides hiddenRow ⟨0⟩ "@R" "p" ∧ Hides vacuousRow ⟨0⟩ "@R" "p" := by
  have hp : (Term.app "p" [.atom "@R"]).Nonlogical :=
    nonlogical_app (by decide) (List.forall_mem_singleton.mpr (nonlogical_atom _))
  have hides : ∀ {t : Term} {n : Nat}, t.IsFormula Nonlogical .full → draws t ⟨0⟩ = n → n < 2 ^ 32 →
      t.rowVariables = ["@R"] → t.applies "p" (· == "@R") = true →
      (ofTerm t ⟨0⟩).1.governing "@R" = [] → Hides t ⟨0⟩ "@R" "p" := by
    intro t n hform hdraws hlt hrows happlies hgoverning
    exact {
      isFormula := hform
      draws_lt := hdraws ▸ hlt
      undrawn := rowsUndrawn_of_single hrows _
      mem_rows := hrows ▸ List.mem_cons_self
      constant := ⟨by decide, by decide⟩
      not_skolem := by decide
      applied := (applies_iff (by decide)).mp happlies
      not_governing := hgoverning ▸ List.not_mem_nil }
  constructor
  · exact hides (n := 2) (.quantified trivial (by decide) (.atomic hp)) (by cbv) (by decide) (by cbv)
      (by cbv) (by cbv)
  · refine hides (n := 1) (.disj (List.forall_mem_cons.mpr ⟨.conj (List.forall_mem_nil _),
      List.forall_mem_singleton.mpr (.atomic hp)⟩)) (by cbv) (by decide) (by cbv) (by cbv) (by cbv)

end ClausalForm

end OntologyPrep
