import Mathlib.Data.List.Nodup
import OntologyPrep.Proofs.Normal.Sources

/-!
# The author's variables recovered

Where a formula has no quantifiers, its clausal form is the matrix of the formula itself, with other
variables.  Read back along the links they are the formula's own (`ClausalForm.source_recovers`).

The first renaming is carried on to a respelling of all names that is its own inverse
(`ClausalForm.Linked.exists_exchanges`): each drawn name and the name that it replaces change places.
Moving disjunctions in does the same with a respelled term as with the term, so that the conjuncts are
those of the matrix with drawn names, and two links lead from each variable back to where it started.
-/

namespace OntologyPrep

/-! ## names that change places -/

/-- each of the names and the one that it is renamed to change places; all other names stay -/
def exchange (names : List String) (ρ : String → String) (a : String) : String :=
  if a ∈ names then ρ a else (names.find? fun b => ρ b = a).getD a

section

variable {names : List String} {ρ : String → String} {a b : String}

theorem exchange_of_mem (ha : a ∈ names) : exchange names ρ a = ρ a := if_pos ha

theorem exchange_of_not_mem (ha : a ∉ names) (hρ : ∀ b ∈ names, ρ b ≠ a) : exchange names ρ a = a := by
  have hnone : names.find? (fun b => ρ b = a) = none :=
    List.find?_eq_none.mpr fun b hb => by simpa using hρ b hb
  rw [exchange, if_neg ha, hnone, Option.getD_none]

theorem exchange_of_constant (hvar : ∀ b ∈ names, Name.isVariable b = true)
    (hvar' : ∀ b ∈ names, Name.isVariable (ρ b) = true) (ha : Name.isVariable a = false) :
    exchange names ρ a = a := by
  refine exchange_of_not_mem (fun hmem => ?_) fun b hb he => ?_
  · rw [hvar a hmem] at ha
    cases ha
  · rw [← he, hvar' b hb] at ha
    cases ha

variable (hout : ∀ b ∈ names, ρ b ∉ names) (hinj : ∀ a ∈ names, ∀ b ∈ names, ρ a = ρ b → a = b)

include hout hinj

theorem exchange_image (hb : b ∈ names) : exchange names ρ (ρ b) = b := by
  rw [exchange, if_neg (hout b hb)]
  cases hfind : names.find? fun c => ρ c = ρ b with
  | none => exact absurd (List.find?_eq_none.mp hfind b hb) (by simp)
  | some c =>
    have hc : ρ c = ρ b := by simpa using List.find?_some hfind
    exact hinj c (List.mem_of_find?_eq_some hfind) b hb hc

theorem exchange_exchange (a : String) : exchange names ρ (exchange names ρ a) = a := by
  by_cases ha : a ∈ names
  · rw [exchange_of_mem ha, exchange_image hout hinj ha]
  · by_cases hρ : ∃ b ∈ names, ρ b = a
    · obtain ⟨b, hb, rfl⟩ := hρ
      rw [exchange_image hout hinj hb, exchange_of_mem hb]
    · have hstays : exchange names ρ a = a :=
        exchange_of_not_mem ha fun b hb he => hρ ⟨b, hb, he⟩
      rw [hstays, hstays]

/-- what each of the names has in common with the one that it is renamed to stays -/
theorem exchange_keeps {β : Type} {g : String → β} (hg : ∀ b ∈ names, g (ρ b) = g b) (a : String) :
    g (exchange names ρ a) = g a := by
  by_cases ha : a ∈ names
  · rw [exchange_of_mem ha, hg a ha]
  · by_cases hρ : ∃ b ∈ names, ρ b = a
    · obtain ⟨b, hb, rfl⟩ := hρ
      rw [exchange_image hout hinj hb, hg b hb]
    · rw [exchange_of_not_mem ha fun b hb he => hρ ⟨b, hb, he⟩]

/-- variables that change places with variables of their kind -/
theorem respelling_exchange (hvar : ∀ b ∈ names, Name.isVariable b = true)
    (hvar' : ∀ b ∈ names, Name.isVariable (ρ b) = true)
    (hrow : ∀ b ∈ names, Name.isRowVariable (ρ b) = Name.isRowVariable b) :
    Respelling (exchange names ρ) where
  inj {a b} he := by rw [← exchange_exchange hout hinj a, he, exchange_exchange hout hinj b]
  operator o := exchange_of_constant hvar hvar' o.not_isVariable
  verum := exchange_of_constant hvar hvar' (by decide)
  falsum := exchange_of_constant hvar hvar' (by decide)
  isVariable := exchange_keeps hout hinj fun b hb => (hvar' b hb).trans (hvar b hb).symm
  isRowVariable := exchange_keeps hout hinj hrow

end

namespace Term

/-! ## terms without quantifiers -/

theorem Unquantified.binder?_eq_none {t : Term} (h : t.Unquantified) : t.binder? = none := by
  rw [Option.eq_none_iff_forall_ne_some]
  intro b hb
  rw [binder?_eq_some_iff.mp hb] at h
  have hq : Name.isQuantifier b.quantifier.name = false := h _ (by simp [Binder.toTerm])
  rw [Name.isQuantifier, Quantifier.ofName?_name] at hq
  cases hq

theorem Unquantified.binders {t : Term} (h : t.Unquantified) : t.binders = 0 := by
  match t with
  | .atom a => rw [Term.binders]
  | .list xs =>
    exact binders_eq_zero h.binder?_eq_none fun x hx => Unquantified.binders (madeOf_list.mp h x hx)

theorem universalsOut_of_binders {t : Term} (h : t.binders = 0) : t.universalsOut = t := by
  match t with
  | .atom a => rw [universalsOut]
  | .list xs =>
    have hparts : ∀ x ∈ xs, x.binders = 0 := fun x hx => Nat.le_zero.mp (h ▸ binders_le_of_mem hx)
    rw [universalsOut_list (binder?_of_binders h),
      map_eq_self fun x hx => universalsOut_of_binders (hparts x hx)]

theorem Renames.unquantified {ρ : String → String} {t t' : Term} (h : Renames ρ t t')
    (ht : t.Unquantified) : t'.Unquantified := by
  induction h with
  | const _ => exact ht
  | var _ hv => exact madeOf_atom.mpr (Name.isQuantifier_of_isVariable hv)
  | @binder _ b _ _ _ _ _ _ =>
    have hb := ht.binder?_eq_none
    rw [binder?_toTerm] at hb
    cases hb
  | list _ hlen _ ih =>
    exact madeOf_list.mpr (forall_mem_of_zip hlen fun p hp =>
      ih p hp (madeOf_list.mp ht p.1 (List.of_mem_zip hp).1))

theorem Unquantified.of_renames {ρ : String → String} {t t' : Term} (ht : t.Unquantified)
    (h : Renames ρ t t') : t' = t.mapVariables ρ ∧
      ∀ a ∈ t.atoms, Name.isVariable a = true → a ∈ t.freeVariables :=
  h.of_binders (h.unquantified ht).binders

theorem Unquantified.respell {f : String → String} (hf : Respelling f) {t : Term}
    (h : t.Unquantified) (hfixed : ∀ a, Name.isVariable a = false → f a = a) :
    (t.respell f).Unquantified := by
  intro a ha
  rw [atoms_respell] at ha
  obtain ⟨b, hb, rfl⟩ := List.mem_map.mp ha
  cases hv : Name.isVariable b with
  | true => exact Name.isQuantifier_of_isVariable ((hf.isVariable b).trans hv)
  | false =>
    rw [hfixed b hv]
    exact h b hb

/-! ## conjuncts put together -/

theorem mapVariables_mapVariables {t : Term} {f g : String → String}
    (hf : ∀ a ∈ t.atoms, Name.isVariable a = true → Name.isVariable (f a) = true) :
    (t.mapVariables f).mapVariables g = t.mapVariables fun a => g (f a) := by
  refine (respell_respell _ _ t).trans (respell_congr fun a ha => ?_)
  by_cases hv : Name.isVariable a = true
  · rw [if_pos hv, if_pos hv, if_pos (hf a ha hv)]
  · rw [if_neg hv, if_neg hv, if_neg hv]

theorem operator?_standardizeApart (t : Term) (links : RenameMap) (s : Supply) :
    (t.standardizeApart links s).1.1.operator? = t.operator? := by
  by_cases hconj : t.operator? = some .conj
  · rw [standardizeApart, if_pos hconj, hconj]
    rfl
  · obtain ⟨_, _, hspec⟩ := renameApart_spec t links s
    rw [standardizeApart, if_neg hconj]
    exact hspec.renames.operator?_eq

/-- what variables become in the conjuncts they become in the conjunction -/
theorem mapVariables_of_operands {f g : String → String} (hf : Respelling f) {t t' : Term}
    (hop : t'.operator? = t.operator?)
    (h : (t'.operands .conj).map (fun x => x.mapVariables g) = (t.operands .conj).map (respell f)) :
    t'.mapVariables g = t.respell f := by
  unfold operands at h
  by_cases hconj : t.operator? = some .conj
  · rw [hop, if_pos hconj, if_pos hconj] at h
    rw [eq_apply_of_operator? hconj, eq_apply_of_operator? (hop.trans hconj), mapVariables_apply,
      hf.apply, h]
  · rw [hop, if_neg hconj, if_neg hconj, List.map_singleton, List.map_singleton] at h
    exact (List.cons.inj h).1

end Term

namespace ClausalForm

open Term

variable {t : Term} {s : Supply} {first second : List (String × String)}

theorem unquantified_normal (h : t.Unquantified) : (normal t).Unquantified :=
  madeOf_negationsIn steady_unquantified (madeOf_implicationsOut steady_unquantified
    (madeOf_equivalencesOut steady_unquantified h))

/-- no name is linked to two -/
theorem Linked.eq_of_mem_first (h : Linked t s first second) {c b b' : String} (hb : (c, b) ∈ first)
    (hb' : (c, b') ∈ first) : b = b' := by
  have hnodup := (List.nodup_append.mp h.nodup).1
  exact (Prod.mk.inj (List.inj_on_of_nodup_map hnodup hb hb' rfl)).2

/-- the respelling makes of the normal form the renamed formula: drawn names and those that they replace
change places, and the links tell which do -/
structure Exchanges (t : Term) (s : Supply) (first : List (String × String)) (f : String → String) :
    Prop where
  respelling : Respelling f
  involutive : ∀ a, f (f a) = a
  fixed : ∀ a, Name.isVariable a = false → f a = a
  renamed : (renamed t s).1.1 = (normal t).respell f
  linked : ∀ a ∈ (normal t).atoms, Name.isVariable a = true → (f a, a) ∈ first

theorem Linked.exists_exchanges (h : Linked t s first second) (ht : t.Unquantified)
    (hnames : ∀ b ∈ (normal t).atoms, Name.isVariable b = true → ¬ Supply.Draws b) :
    ∃ f, Exchanges t s first f := by
  obtain ⟨ρ, hρ⟩ := h.along_first
  obtain ⟨heq, hfree⟩ := (unquantified_normal ht).of_renames hρ.renames
  have hvar : ∀ b ∈ (normal t).freeVariables, Name.isVariable b = true :=
    fun b hb => isVariable_of_mem_freeVariables hb
  have hkey : ∀ b ∈ (normal t).freeVariables, ρ b ∈ first.map Prod.fst ++ second.map Prod.fst :=
    fun b hb => List.mem_append_left _ (List.mem_map_of_mem (hρ.free b hb))
  have hvar' : ∀ b ∈ (normal t).freeVariables, Name.isVariable (ρ b) = true :=
    fun b hb => h.isVariable _ (hkey b hb)
  have hout : ∀ b ∈ (normal t).freeVariables, ρ b ∉ (normal t).freeVariables := fun b hb hmem =>
    hnames _ (mem_atoms_of_mem_freeVariables hmem) (hvar' b hb) (h.draws _ (hkey b hb))
  have hinj : ∀ a ∈ (normal t).freeVariables, ∀ b ∈ (normal t).freeVariables, ρ a = ρ b → a = b :=
    fun a ha b hb he => h.eq_of_mem_first (hρ.free a ha) (he ▸ hρ.free b hb)
  refine ⟨exchange (normal t).freeVariables ρ, ?_⟩
  constructor
  case respelling =>
    exact respelling_exchange hout hinj hvar hvar' fun b hb =>
      h.kinds _ (List.mem_append_left _ (hρ.free b hb))
  case involutive => exact exchange_exchange hout hinj
  case fixed => exact fun a ha => exchange_of_constant hvar hvar' ha
  case renamed =>
    refine heq.trans (respell_congr fun a ha => ?_)
    cases hv : Name.isVariable a with
    | true => rw [if_pos rfl, exchange_of_mem (hfree a ha hv)]
    | false => rw [if_neg Bool.false_ne_true, exchange_of_constant hvar hvar' hv]
  case linked =>
    intro a ha hv
    rw [exchange_of_mem (hfree a ha hv)]
    exact hρ.free a (hfree a ha hv)

/-- without quantifiers nothing is Skolemised, and the matrix is that of the renamed formula -/
theorem matrix_of_unquantified (ht : t.Unquantified) :
    matrix t s = (renamed t s).1.1.disjunctionsIn := by
  obtain ⟨_, _, hspec⟩ := renameApart_spec (normal t) .empty s
  have hbinders : (renamed t s).1.1.binders = 0 :=
    (hspec.renames.unquantified (unquantified_normal ht)).binders
  rw [matrix, skolemized, existentialsOut, skolemize_of_binders _ hbinders,
    universalsOut_of_binders hbinders]

section

variable {f : String → String} (hf : Exchanges t s first f) (ht : t.Unquantified)

include hf ht

theorem Exchanges.matrix_eq : matrix t s = (normal t).disjunctionsIn.respell f := by
  rw [matrix_of_unquantified ht, hf.renamed, hf.respelling.disjunctionsIn]

theorem Exchanges.unquantified_matrix : (matrix t s).Unquantified := by
  have hwhole : (normal t).disjunctionsIn.Unquantified :=
    madeOf_disjunctionsIn steady_unquantified (unquantified_normal ht)
  rw [hf.matrix_eq ht]
  exact hwhole.respell hf.respelling hf.fixed

/-- the name that changed places with a variable of the matrix is the one that it replaced -/
theorem Exchanges.mem_first {c : String} (hc : c ∈ (matrix t s).atoms)
    (hv : Name.isVariable c = true) : (c, f c) ∈ first := by
  rw [hf.matrix_eq ht, atoms_respell] at hc
  obtain ⟨d, hd, rfl⟩ := List.mem_map.mp hc
  have hover : (normal t).Over (· ∈ (normal t).atoms) := fun b hb => .inl hb
  rw [hf.respelling.isVariable] at hv
  rw [hf.involutive]
  exact hf.linked d ((over_disjunctionsIn hover).of_isVariable hd hv) hv

variable (h : Linked t s first second)
  (hnames : ∀ b ∈ (normal t).atoms, Name.isVariable b = true → ¬ Supply.Draws b)

include h hnames

/-- two links lead from a variable of a conjunct to the name that changed places with the one that it
replaced -/
theorem Exchanges.source_eq {a c : String} (hac : (a, c) ∈ second) (hc : c ∈ (matrix t s).atoms)
    (hv : Name.isVariable c = true) : (ofTerm t s).1.source a = f c := by
  rcases h.source_eq hnames hac with ⟨hconst, -⟩ | ⟨b, hb, hsource⟩
  · rw [hv] at hconst
    cases hconst
  · rw [hsource, h.eq_of_mem_first hb (hf.mem_first ht hc hv)]

/-- read back along the links a conjunct of the form is the one of the matrix, respelled back -/
theorem Exchanges.mapVariables_source {p : Term × Term}
    (hp : p ∈ ((matrix t s).operands .conj).zip ((ofTerm t s).1.term.operands .conj)) :
    p.2.mapVariables (ofTerm t s).1.source = p.1.respell f := by
  have hmem := (List.of_mem_zip hp).1
  have hatoms : ∀ c ∈ p.1.atoms, c ∈ (matrix t s).atoms := by
    have hwhole : (matrix t s).MadeOf (· ∈ (matrix t s).atoms) := fun b hb => hb
    exact madeOf_operands hwhole p.1 hmem
  obtain ⟨ρ, hρ⟩ := h.along_second p hp
  obtain ⟨heq, hfree⟩ :=
    Unquantified.of_renames (madeOf_operands (hf.unquantified_matrix ht) p.1 hmem) hρ.renames
  have hlinked : ∀ c ∈ p.1.atoms, Name.isVariable c = true → (ρ c, c) ∈ second :=
    fun c hc hv => hρ.free c (hfree c hc hv)
  rw [heq, mapVariables_mapVariables fun c hc hv => h.isVariable _
    (List.mem_append_right _ (List.mem_map_of_mem (hlinked c hc hv)))]
  refine respell_congr fun c hc => ?_
  cases hv : Name.isVariable c with
  | true =>
    rw [if_pos rfl]
    exact hf.source_eq ht h hnames (hlinked c hc hv) (hatoms c hc) hv
  | false => rw [if_neg Bool.false_ne_true, hf.fixed c hv]

end

/-- For a formula without quantifiers, no variable of which looks drawn, and a run that draws fewer names than
the counter has values: with the name that it leads back to in place of each variable, the term of the form
is the formula without arrows, with the negations and then the disjunctions moved in. -/
theorem source_recovers (t : Term) (ht : t.Unquantified)
    (hnames : ∀ a ∈ t.atoms, Name.isVariable a = true → ¬ Supply.Draws a) (s : Supply)
    (hdraws : draws t s < 2 ^ 32) :
    (ofTerm t s).1.term.mapVariables (ofTerm t s).1.source =
      t.equivalencesOut.implicationsOut.negationsIn.disjunctionsIn := by
  obtain ⟨first, second, h⟩ := exists_linked hdraws
  have hnormal : ∀ b ∈ (normal t).atoms, Name.isVariable b = true → ¬ Supply.Draws b := by
    have hover : t.Over fun a => Name.isVariable a = true → ¬ Supply.Draws a :=
      fun a ha => .inl (hnames a ha)
    exact fun b hb hv => (over_negationsIn (over_implicationsOut
      (over_equivalencesOut hover))).of_isVariable hb hv hv
  obtain ⟨f, hf⟩ := h.exists_exchanges ht hnormal
  have hlen : ((ofTerm t s).1.term.operands .conj).length = ((matrix t s).operands .conj).length := by
    rw [ofTerm_eq, operands_standardizeApart]
    exact (renameEach_zip _ _ _).1
  have hwhole : (ofTerm t s).1.term.mapVariables (ofTerm t s).1.source = (matrix t s).respell f :=
    mapVariables_of_operands hf.respelling (operator?_standardizeApart _ _ _)
      (map_eq_map_of_zip hlen fun p hp => hf.mapVariables_source ht h hnormal hp)
  rw [hwhole, hf.matrix_eq ht, respell_respell]
  exact respell_eq_self fun a _ => hf.involutive a

/-- clauses with variables in common, one of them for a row -/
def sharedVariables : Term :=
  .implies (.disj [.app "p" [.atom "?X", .atom "@ROW"], .app "q" [.atom "?X"]])
    (.neg (.conj [.app "r" [.atom "?X"], .app "s" [.atom "@ROW"]]))

theorem source_recovers_sharedVariables : sharedVariables.Unquantified ∧
    (∀ a ∈ sharedVariables.atoms, Name.isVariable a = true → ¬ Supply.Draws a) ∧
    draws sharedVariables ⟨0⟩ < 2 ^ 32 ∧
    (ofTerm sharedVariables ⟨0⟩).1.term.mapVariables (ofTerm sharedVariables ⟨0⟩).1.source =
      sharedVariables.equivalencesOut.implicationsOut.negationsIn.disjunctionsIn := by
  have hatoms : sharedVariables.atoms = ["=>", "or", "p", "?X", "@ROW", "q", "?X", "not", "and", "r",
      "?X", "s", "@ROW"] := by cbv
  have ht : sharedVariables.Unquantified := by
    rw [Unquantified, MadeOf, hatoms]
    decide
  have hnames : ∀ a ∈ sharedVariables.atoms, Name.isVariable a = true → ¬ Supply.Draws a := by
    rw [hatoms]
    intro a ha hv
    have hread : a = "?X" ∨ a = "@ROW" := by
      revert a
      decide
    rcases hread with rfl | rfl <;> exact Supply.not_draws_of_letter Nat.one_lt_two rfl (by decide)
  have hdraws : draws sharedVariables ⟨0⟩ < 2 ^ 32 := by
    have h : draws sharedVariables ⟨0⟩ = 6 := by cbv
    rw [h]
    decide
  exact ⟨ht, hnames, hdraws, source_recovers sharedVariables ht hnames ⟨0⟩ hdraws⟩

example : (ofTerm sharedVariables ⟨0⟩).1.term = .conj [
    .disj [.neg (.app "p" [.atom "?VAR3", .atom "@VAR4"]), .neg (.app "r" [.atom "?VAR3"]),
      .neg (.app "s" [.atom "@VAR4"])],
    .disj [.neg (.app "q" [.atom "?VAR5"]), .neg (.app "r" [.atom "?VAR5"]),
      .neg (.app "s" [.atom "@VAR6"])]] := by cbv

end ClausalForm

end OntologyPrep
