import OntologyPrep.Proofs.Meaning.Clausification
import OntologyPrep.Proofs.Normal.Sources

/-!
# Which symbols stand for existential names

`Term.TakesSymbols universals t chosen t'` says of any term, a formula or not, that `t'` is `t` with a
Skolem term in place of each existential name, and `chosen` pairs these names with their symbols.

* `ClausalForm.exists_symbols`       each existential name of the renamed formula has a symbol of its own,
                                     and these are all that the form has besides those of the formula;
* `ClausalForm.not_symbols_fresh`    but the formula may have one of them already;
* `ClausalForm.not_satisfiable_reusedSymbol`   and then its clauses may contradict each other where it is
                                     true.
-/

namespace OntologyPrep

universe u

namespace Term

/-! ## terms with symbols for their existential names -/

/-- the Skolem term of its symbol put in the place of each name -/
def putSymbols (universals : List String) (chosen : List (String × String)) (body : Term) : Term :=
  chosen.foldl (fun t c => t.substitute c.1 (.ofSkolem c.2 universals)) body

/-- a symbol for terms with the given universals in scope: the name of a constant if there are none, and
of a function otherwise -/
def IsSymbolFor (universals : List String) (symbol : String) : Prop :=
  ∃ n : Nat, symbol = (if universals = [] then "Sk" else "SkFn") ++ toString n

/-- the second term is the first one with the Skolem term of its own symbol in place of each existential
name; in scope are the given universals -/
inductive TakesSymbols : List String → Term → List (String × String) → Term → Prop where
  | atom {universals : List String} {a : String} : TakesSymbols universals (.atom a) [] (.atom a)
  | list {universals : List String} {parts : List (Term × List (String × String) × Term)} :
    (Term.list (parts.map fun p => p.1)).binder? = none →
    (∀ p ∈ parts, TakesSymbols universals p.1 p.2.1 p.2.2) →
    TakesSymbols universals (.list (parts.map fun p => p.1)) (parts.flatMap fun p => p.2.1)
      (.list (parts.map fun p => p.2.2))
  | all {universals : List String} {b : Binder} {chosen : List (String × String)} {body' : Term} :
    b.quantifier = .all → TakesSymbols (universals ++ b.names) b.body chosen body' →
    TakesSymbols universals b.toTerm chosen (.quantified Quantifier.all.name b.names body')
  | any {universals : List String} {b : Binder} {own chosen : List (String × String)} {t' : Term} :
    b.quantifier = .any → own.map Prod.fst = b.names → (∀ c ∈ own, IsSymbolFor universals c.2) →
    TakesSymbols universals (b.body.putSymbols universals own) chosen t' →
    TakesSymbols universals b.toTerm (own ++ chosen) t'

theorem isSymbolFor_skolemSymbol (universals : List String) (s : Supply) :
    IsSymbolFor universals (s.skolemSymbol universals) := ⟨_, rfl⟩

theorem IsSymbolFor.isSkolem {universals : List String} {symbol : String}
    (h : IsSymbolFor universals symbol) : Name.isSkolem symbol = true := by
  obtain ⟨n, rfl⟩ := h
  split
  · exact Name.isSkolem_constant n
  · exact Name.isSkolem_function n

theorem TakesSymbols.isSkolem {universals : List String} {t t' : Term} {chosen : List (String × String)}
    (h : TakesSymbols universals t chosen t') : ∀ c ∈ chosen, Name.isSkolem c.2 = true := by
  induction h with
  | atom => simp
  | list _ _ ih =>
    intro c hc
    obtain ⟨p, hp, hc⟩ := List.mem_flatMap.mp hc
    exact ih p hp c hc
  | all _ _ ih => exact ih
  | any _ _ hown _ ih =>
    exact List.forall_mem_append.mpr ⟨fun c hc => (hown c hc).isSkolem, ih⟩

/-- a term without quantified formulas stays as it is -/
theorem takesSymbols_of_binders (universals : List String) {t : Term} (h : t.binders = 0) :
    TakesSymbols universals t [] t := by
  match t with
  | .atom a => exact .atom
  | .list xs =>
    have hfst : (xs.map fun x => (x, ([] : List (String × String)), x)).map (fun p => p.1) = xs := by
      rw [List.map_map]
      exact List.map_id xs
    have hsnd : (xs.map fun x => (x, ([] : List (String × String)), x)).map (fun p => p.2.2) = xs := by
      rw [List.map_map]
      exact List.map_id xs
    have hnone : (xs.map fun x => (x, ([] : List (String × String)), x)).flatMap (fun p => p.2.1) =
        [] := by
      rw [List.flatMap_map]
      exact List.flatMap_eq_nil_iff.mpr fun _ _ => rfl
    have hlist := @TakesSymbols.list universals
      (xs.map fun x => (x, ([] : List (String × String)), x))
      (by rw [hfst]; exact binder?_of_binders h)
      (List.forall_mem_map.mpr fun x hx =>
        takesSymbols_of_binders universals (Nat.le_zero.mp (h ▸ binders_le_of_mem hx)))
    rwa [hfst, hsnd, hnone] at hlist

theorem over_putSymbols {names : String → Prop} {universals : List String}
    (hu : ∀ u ∈ universals, (atom u).Over names) {chosen : List (String × String)} {body : Term}
    (hchosen : ∀ c ∈ chosen, names c.2) (hbody : body.Over names) :
    (body.putSymbols universals chosen).Over names := by
  induction chosen generalizing body with
  | nil => exact hbody
  | cons c chosen ih =>
    refine ih (fun d hd => hchosen d (List.mem_cons_of_mem _ hd)) (over_substitute hbody c.1 ?_)
    intro a ha
    rcases mem_atoms_ofSkolem ha with rfl | ha
    · exact .inl (hchosen c List.mem_cons_self)
    · exact hu a ha a (by simp)

/-- the chosen symbols are the only names that come -/
theorem TakesSymbols.over {names : String → Prop} {universals : List String} {t t' : Term}
    {chosen : List (String × String)} (h : TakesSymbols universals t chosen t')
    (hu : ∀ u ∈ universals, (Term.atom u).Over names) (hchosen : ∀ c ∈ chosen, names c.2)
    (ht : t.Over names) : t'.Over names := by
  induction h with
  | atom => exact ht
  | list _ _ ih =>
    refine over_list.mpr (List.forall_mem_map.mpr fun p hp => ih p hp hu (fun c hc => ?_) ?_)
    · exact hchosen c (List.mem_flatMap.mpr ⟨p, hp, hc⟩)
    · exact over_list.mp ht p.1 (List.mem_map_of_mem hp)
  | @all universals b chosen body' _ _ ih =>
    obtain ⟨hnames, hbody⟩ := over_binder ht
    refine over_apply_pair (o := .quant .all) (over_list.mpr (List.forall_mem_map.mpr hnames)) ?_
    exact ih (List.forall_mem_append.mpr ⟨hu, hnames⟩) hchosen hbody
  | any _ _ _ _ ih =>
    refine ih hu (fun c hc => hchosen c (List.mem_append_right _ hc)) ?_
    exact over_putSymbols hu (fun c hc => hchosen c (List.mem_append_left _ hc)) (over_binder ht).2

/-! ## one run -/

theorem exists_putSymbols (universals names : List String) (body : Term) (s : Supply) :
    ∃ own : List (String × String), own.map Prod.fst = names ∧
      (∀ c ∈ own, IsSymbolFor universals c.2) ∧
      (skolemizeNames universals names body s).1 = body.putSymbols universals own ∧
      Supply.Drawn s (own.map Prod.snd) (skolemizeNames universals names body s).2 := by
  induction names generalizing body s with
  | nil => exact ⟨[], rfl, by simp, rfl, .nil s⟩
  | cons name names ih =>
    rw [skolemizeNames, State.bind_apply, Supply.skolem_eq]
    obtain ⟨own, hnames, hsymbols, hbody, hdrawn⟩ :=
      ih (body.substitute name (.ofSkolem (s.skolemSymbol universals) universals)) s.next
    refine ⟨(name, s.skolemSymbol universals) :: own, by rw [List.map_cons, hnames], ?_, hbody,
      hdrawn.cons_skolem universals⟩
    exact List.forall_mem_cons.mpr ⟨isSymbolFor_skolemSymbol universals s, hsymbols⟩

/-- terms that are worked on one after another, each with the symbols for its existential names -/
theorem exists_parts {universals : List String} {xs : List Term}
    (h : ∀ x ∈ xs, ∀ s, ∃ chosen : List (String × String),
      TakesSymbols universals x chosen (x.skolemize universals s).1 ∧
        chosen.map Prod.fst = x.existentials ∧
        Supply.Drawn s (chosen.map Prod.snd) (x.skolemize universals s).2) (s : Supply) :
    ∃ parts : List (Term × List (String × String) × Term), parts.map (fun p => p.1) = xs ∧
      (∀ p ∈ parts, TakesSymbols universals p.1 p.2.1 p.2.2) ∧
      parts.map (fun p => p.2.2) = (xs.mapM (skolemize universals) s).1 ∧
      (parts.flatMap fun p => p.2.1).map Prod.fst = xs.flatMap existentials ∧
      Supply.Drawn s ((parts.flatMap fun p => p.2.1).map Prod.snd)
        (xs.mapM (skolemize universals) s).2 := by
  induction xs generalizing s with
  | nil => exact ⟨[], rfl, by simp, rfl, rfl, .nil s⟩
  | cons x xs ih =>
    obtain ⟨hx, hxs⟩ := List.forall_mem_cons.mp h
    obtain ⟨chosen, htakes, hnames, hdrawn⟩ := hx s
    obtain ⟨parts, hfst, hall, hsnd, hnames', hdrawn'⟩ := ih hxs (x.skolemize universals s).2
    rw [State.mapM_cons_apply]
    refine ⟨(x, chosen, (x.skolemize universals s).1) :: parts, by rw [List.map_cons, hfst],
      List.forall_mem_cons.mpr ⟨htakes, hall⟩, by rw [List.map_cons, hsnd], ?_, ?_⟩
    · rw [List.flatMap_cons, List.map_append, hnames, hnames', List.flatMap_cons]
    · rw [List.flatMap_cons, List.map_append]
      exact hdrawn.trans hdrawn'

/-- the symbols of a run are drawn one after another, one for each existential name -/
theorem exists_takesSymbols (universals : List String) {t : Term}
    (hbound : ∀ n ∈ t.bound, Name.isVariable n = true) (s : Supply) :
    ∃ chosen : List (String × String), TakesSymbols universals t chosen (t.skolemize universals s).1 ∧
      chosen.map Prod.fst = t.existentials ∧
      Supply.Drawn s (chosen.map Prod.snd) (t.skolemize universals s).2 := by
  induction universals, t using skolemize.induct generalizing s with
  | case1 universals a =>
    rw [skolemize, existentials, boundBy_atom]
    exact ⟨[], .atom, rfl, .nil s⟩
  | case2 universals items b hb hall ih =>
    rw [binder?_eq_some_iff.mp hb, bound, boundBy_binder] at hbound
    rw [binder?_eq_some_iff.mp hb, skolemize_binder_all universals hall, existentials, boundBy_binder,
      hall]
    obtain ⟨chosen, htakes, hnames, hdrawn⟩ :=
      ih (fun n hn => hbound n (List.mem_append_right _ hn)) s
    exact ⟨chosen, .all hall htakes, hnames, hdrawn⟩
  | case3 universals items b hb hany ih =>
    rw [binder?_eq_some_iff.mp hb, bound, boundBy_binder] at hbound
    have hvars : ∀ n ∈ b.names, Name.isVariable n = true := fun n hn =>
      hbound n (List.mem_append_left _ hn)
    rw [binder?_eq_some_iff.mp hb, skolemize_binder_any universals hany, existentials, boundBy_binder,
      hany]
    obtain ⟨own, hown, hsymbols, hbody, hdrawn⟩ := exists_putSymbols universals b.names b.body s
    obtain ⟨chosen, htakes, hnames, hdrawn'⟩ := ih s
      (by
        rw [bound, boundBy_skolemizeNames _ _ hvars]
        exact fun n hn => hbound n (List.mem_append_right _ hn))
      (skolemizeNames universals b.names b.body s).2
    rw [existentials, boundBy_skolemizeNames _ _ hvars] at hnames
    refine ⟨own ++ chosen, .any hany hown hsymbols ?_, ?_, ?_⟩
    · rw [← hbody]
      exact htakes
    · rw [List.map_append, hown, hnames]
      rfl
    · rw [List.map_append]
      exact hdrawn.trans hdrawn'
  | case4 universals items hb ih =>
    rw [bound, boundBy_list _ hb] at hbound
    obtain ⟨parts, hfst, hall, hsnd, hnames, hdrawn⟩ := exists_parts
      (fun x hx => ih x hx fun n hn => hbound n (List.mem_flatMap.mpr ⟨x, hx, hn⟩)) s
    rw [skolemize_list universals hb, existentials, boundBy_list _ hb, ← hsnd]
    subst hfst
    exact ⟨_, .list hb hall, hnames, hdrawn⟩

end Term

namespace ClausalForm

variable {t : Term} {s : Supply}

/-- Each existential name of the renamed formula is replaced by the Skolem term of a symbol that is drawn
for it.  As long as there are fewer of them than the counter has values, the symbols are all different.
The clausal form has no other Skolem symbols but those of the formula, and a formula that has none does
not have any of those drawn. -/
theorem exists_symbols (t : Term) (s : Supply) : ∃ chosen : List (String × String),
    Term.TakesSymbols (renamed t s).1.1.freeVariables (renamed t s).1.1 chosen (skolemized t s).1 ∧
      chosen.map Prod.fst = (renamed t s).1.1.existentials ∧
      Supply.Drawn (renamed t s).2 (chosen.map Prod.snd) (skolemized t s).2 ∧
      ((renamed t s).1.1.existentials.length < 2 ^ 32 → (chosen.map Prod.snd).Nodup) ∧
      (∀ f ∈ (ofTerm t s).1.term.atoms, Name.isSkolem f = true →
        f ∈ t.atoms ∨ f ∈ chosen.map Prod.snd) ∧
      (t.containsSkolem = false → ∀ f ∈ chosen.map Prod.snd, f ∉ t.atoms) := by
  obtain ⟨_, _, hspec⟩ := Term.renameApart_spec (normal t) .empty s
  obtain ⟨chosen, htakes, hnames, hdrawn⟩ := Term.exists_takesSymbols
    (renamed t s).1.1.freeVariables (t := (renamed t s).1.1) hspec.renames.isVariable_of_mem_bound
    (renamed t s).2
  refine ⟨chosen, htakes, hnames, hdrawn, fun hfew => hdrawn.nodup ?_, fun f hf hskolem => ?_,
    fun hnone f hf hmem => ?_⟩
  · rwa [List.length_map, ← List.length_map (f := Prod.fst), hnames]
  · have hover : (skolemized t s).1.Over fun a =>
        Name.isVariable a = true ∨ a ∈ t.atoms ∨ a ∈ chosen.map Prod.snd := by
      refine htakes.over (fun u hu a ha => ?_) (fun c hc => .inr (.inr (List.mem_map_of_mem hc)))
        fun a ha => (over_renamed t s a ha).imp_left (Or.imp_right .inl)
      rw [Term.atoms_atom, List.mem_singleton] at ha
      subst ha
      exact .inl (.inl (Term.isVariable_of_mem_freeVariables hu))
    have hform : (ofTerm t s).1.term.Over fun a =>
        Name.isVariable a = true ∨ a ∈ t.atoms ∨ a ∈ chosen.map Prod.snd :=
      Term.over_standardizeApart (fun a ha => .inl ha)
        (Term.over_disjunctionsIn (Term.over_universalsOut hover)) _ _
    refine (hform.of_isSkolem hf hskolem).resolve_left fun hv => ?_
    exact absurd ((Name.isConstant_of_isSkolem hskolem).1.symm.trans hv) (by decide)
  · obtain ⟨c, hc, rfl⟩ := List.mem_map.mp hf
    exact List.any_eq_false.mp hnone c.2 hmem (htakes.isSkolem c hc)

/-! ## symbols of the formula -/

/-- one thing is not `p` and another is, and the one is called like the symbol drawn for the other -/
def reusedSymbol : Term :=
  .conj [.neg (.app "p" [.atom "Sk2"]), .quantified Quantifier.any.name ["?X"] (.app "p" [.atom "?X"])]

/-- the symbol that is drawn for an existential name may be one that the formula has -/
theorem not_symbols_fresh : ¬ ∀ (t : Term) (s : Supply) (chosen : List (String × String)),
    Term.TakesSymbols (renamed t s).1.1.freeVariables (renamed t s).1.1 chosen (skolemized t s).1 →
      chosen.map Prod.fst = (renamed t s).1.1.existentials →
      Supply.Drawn (renamed t s).2 (chosen.map Prod.snd) (skolemized t s).2 →
      ∀ f ∈ chosen.map Prod.snd, f ∉ t.atoms := by
  intro h
  have hrenamed : (renamed reusedSymbol ⟨0⟩).1.1 = .conj [.neg (.app "p" [.atom "Sk2"]),
      .quantified Quantifier.any.name ["?VAR1"] (.app "p" [.atom "?VAR1"])] := by cbv
  have hfree : (renamed reusedSymbol ⟨0⟩).1.1.freeVariables = [] := by
    rw [hrenamed]
    cbv
  have hexistentials : (renamed reusedSymbol ⟨0⟩).1.1.existentials = ["?VAR1"] := by
    rw [hrenamed]
    cbv
  have hskolemized : (skolemized reusedSymbol ⟨0⟩).1 =
      .conj [.neg (.app "p" [.atom "Sk2"]), .app "p" [.atom "Sk2"]] := by cbv
  have hsupply : (renamed reusedSymbol ⟨0⟩).2 = ⟨1⟩ ∧ (skolemized reusedSymbol ⟨0⟩).2 = ⟨2⟩ := by
    constructor <;> cbv
  have hany : Term.TakesSymbols [] (.quantified Quantifier.any.name ["?VAR1"] (.app "p" [.atom "?VAR1"]))
      ([("?VAR1", "Sk2")] ++ []) (.app "p" [.atom "Sk2"]) := by
    refine .any (b := ⟨.any, .list [.atom "?VAR1"], .app "p" [.atom "?VAR1"]⟩) rfl rfl ?_ ?_
    · exact List.forall_mem_singleton.mpr ⟨2, by cbv⟩
    · have hput : (Term.app "p" [.atom "?VAR1"]).putSymbols [] [("?VAR1", "Sk2")] =
          .app "p" [.atom "Sk2"] := by cbv
      rw [hput]
      exact Term.takesSymbols_of_binders [] (by cbv)
  have htakes : Term.TakesSymbols [] (.conj [.neg (.app "p" [.atom "Sk2"]),
      .quantified Quantifier.any.name ["?VAR1"] (.app "p" [.atom "?VAR1"])]) [("?VAR1", "Sk2")]
      (.conj [.neg (.app "p" [.atom "Sk2"]), .app "p" [.atom "Sk2"]]) := by
    refine @Term.TakesSymbols.list [] [(.atom "and", [], .atom "and"),
      (.neg (.app "p" [.atom "Sk2"]), [], .neg (.app "p" [.atom "Sk2"])),
      (.quantified Quantifier.any.name ["?VAR1"] (.app "p" [.atom "?VAR1"]), [("?VAR1", "Sk2")],
        .app "p" [.atom "Sk2"])] rfl ?_
    rw [List.forall_mem_cons, List.forall_mem_cons, List.forall_mem_singleton]
    exact ⟨.atom, Term.takesSymbols_of_binders [] (by cbv), hany⟩
  refine h reusedSymbol ⟨0⟩ [("?VAR1", "Sk2")] ?_ hexistentials.symm ?_ "Sk2" List.mem_cons_self
    (by simp [reusedSymbol, Term.conj, Term.neg, Term.apply, Term.app])
  · rw [hfree, hrenamed, hskolemized]
    exact htakes
  · rw [hsupply.1, hsupply.2]
    exact Supply.Drawn.cons_skolem [] (s := ⟨1⟩) (.nil ⟨2⟩)

/-- The clauses of a formula that has the symbol drawn for its existential name may be false under every
interpretation although the formula is true under one. -/
theorem not_satisfiable_reusedSymbol : (∃ M : Interpretation Bool, M.Models reusedSymbol) ∧
    ∀ (D : Type u) [Nonempty D] (M : Interpretation D), ¬ M.Satisfies (ofTerm reusedSymbol ⟨0⟩).1 := by
  have hp : Name.isOperator "p" = false := by decide
  constructor
  · refine ⟨⟨fun _ _ => false, fun _ args => args = [true]⟩, fun v => ?_⟩
    rw [reusedSymbol, Term.truth_conj, List.forall_mem_cons, List.forall_mem_singleton, Term.truth_neg,
      Term.truth_app _ hp, Term.truth_any]
    refine ⟨?_, Function.update v "?X" true, fun a ha => ?_, (Term.truth_app _ hp).mpr ?_⟩
    · rw [Interpretation.holds_app]
      simp +decide [Interpretation.denote]
    · exact Function.update_of_ne (fun he => ha (List.mem_singleton.mpr he)) _ _
    · rw [Interpretation.holds_app]
      simp +decide [Interpretation.denote]
  · intro D hD M hsatisfies
    have hterm : (ofTerm reusedSymbol ⟨0⟩).1.term =
        .conj [.neg (.app "p" [.atom "Sk2"]), .app "p" [.atom "Sk2"]] := by cbv
    have htrue := (M.satisfies_iff _).mp hsatisfies fun _ => hD.some
    rw [hterm, Term.truth_conj, List.forall_mem_cons, List.forall_mem_singleton, Term.truth_neg] at htrue
    exact htrue.1 htrue.2

end ClausalForm

end OntologyPrep
