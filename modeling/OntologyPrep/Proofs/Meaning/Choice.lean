import OntologyPrep.Proofs.Meaning.Skolem

/-!
# Skolem terms keep satisfiability

* `Term.Skolemizes.sound`     where the Skolemised formula is true, the formula is;
* `Term.Skolemizes.complete`  where the formula is true, the Skolemised one is for some functions in
                              place of those of the symbols.

The functions are chosen one existential name after another.  A function may only look at the values of
the universals in scope; these decide the truth of the formula that the name is taken from, as long as
they cover its free variables (`Term.InScope`).
-/

namespace OntologyPrep

universe u

namespace Interpretation

variable {D : Type u}

theorem AgreeOff.refl (changed : String → Prop) (M : Interpretation D) : AgreeOff changed M M :=
  ⟨rfl, fun _ _ => rfl⟩

theorem AgreeOff.trans {M N K : Interpretation D} {p q r : String → Prop} (h : AgreeOff p M N)
    (h' : AgreeOff q N K) (hp : ∀ f, p f → r f) (hq : ∀ f, q f → r f) : AgreeOff r M K :=
  ⟨h'.1.trans h.1, fun f hf =>
    (h'.2 f fun hn => hf (hq f hn)).trans (h.2 f fun hn => hf (hp f hn))⟩

/-- the interpretation with another function for one symbol -/
def withFunction (M : Interpretation D) (symbol : String) (g : List D → D) : Interpretation D :=
  { M with function := Function.update M.function symbol g }

theorem agreeOff_withFunction (M : Interpretation D) (symbol : String) (g : List D → D) :
    M.AgreeOff (· = symbol) (M.withFunction symbol g) :=
  ⟨rfl, fun _ hf => Function.update_of_ne hf _ _⟩

end Interpretation

namespace Term

/-! ## variables in scope -/

/-- the variables in scope cover the free ones of the formula, and it binds none of them and no name
twice -/
structure InScope (universals : List String) (t : Term) : Prop where
  areVariables : ∀ a ∈ universals, Name.isVariable a = true
  free : ∀ a ∈ t.freeVariables, a ∈ universals
  nodup : t.bound.Nodup
  apart : ∀ a ∈ universals, a ∉ t.bound

section

variable {universals names : List String} {body : Term}

theorem InScope.cons {o : Operator} (ho : o = .conj ∨ o = .disj) {x : Term} {xs : List Term}
    (h : InScope universals (apply o (x :: xs))) :
    InScope universals x ∧ InScope universals (apply o xs) := by
  have hq : Name.isQuantifier o.name = false := by rcases ho with rfl | rfl <;> decide
  have hv : Name.isVariable o.name = false := by rcases ho with rfl | rfl <;> decide
  have hbound : (apply o (x :: xs)).bound = x.bound ++ (apply o xs).bound := by
    rw [apply, apply, bound_app hq, bound_app hq, List.flatMap_cons]
  obtain ⟨hvars, hfree, hnodup, hapart⟩ := h
  rw [hbound] at hnodup hapart
  obtain ⟨hx, hxs, _⟩ := List.nodup_append.mp hnodup
  constructor
  · refine ⟨hvars, fun a ha => hfree a ?_, hx, fun a ha hb => ?_⟩
    · exact (mem_freeVariables_app hq hv).mpr ⟨x, by simp, ha⟩
    · exact hapart a ha (List.mem_append_left _ hb)
  · refine ⟨hvars, fun a ha => hfree a ?_, hxs, fun a ha hb => ?_⟩
    · obtain ⟨y, hy, ha⟩ := (mem_freeVariables_app hq hv).mp ha
      exact (mem_freeVariables_app hq hv).mpr ⟨y, List.mem_cons_of_mem _ hy, ha⟩
    · exact hapart a ha (List.mem_append_right _ hb)

theorem InScope.all (hnames : ∀ n ∈ names, Name.isVariable n = true)
    (h : InScope universals (.quantified Quantifier.all.name names body)) :
    InScope (universals ++ names) body := by
  obtain ⟨hvars, hfree, hnodup, hapart⟩ := h
  rw [bound_quantified] at hnodup hapart
  obtain ⟨_, hbody, hdisjoint⟩ := List.nodup_append.mp hnodup
  refine ⟨fun a ha => ?_, fun a ha => ?_, hbody, fun a ha hb => ?_⟩
  · exact (List.mem_append.mp ha).elim (hvars a) (hnames a)
  · by_cases hn : a ∈ names
    · exact List.mem_append_right _ hn
    · exact List.mem_append_left _ (hfree a (mem_freeVariables_quantified.mpr ⟨ha, hn⟩))
  · rcases List.mem_append.mp ha with ha | ha
    · exact hapart a ha (List.mem_append_right _ hb)
    · exact hdisjoint a ha a hb rfl

theorem InScope.any_nil (h : InScope universals (.quantified Quantifier.any.name [] body)) :
    InScope universals body := by
  obtain ⟨hvars, hfree, hnodup, hapart⟩ := h
  rw [bound_quantified, List.nil_append] at hnodup hapart
  exact ⟨hvars, fun a ha => hfree a (mem_freeVariables_quantified.mpr ⟨ha, List.not_mem_nil⟩),
    hnodup, hapart⟩

theorem InScope.any_cons {name : String} {value : Term} (hvar : Name.isVariable name = true)
    (hvalue : value.IsIndividual) (hscope : ∀ a ∈ value.freeVariables, a ∈ universals)
    (hbody : body.IsFormula IsAtomicFormula .normal)
    (h : InScope universals (.quantified Quantifier.any.name (name :: names) body)) :
    InScope universals (.quantified Quantifier.any.name names (body.substitute name value)) := by
  obtain ⟨hvars, hfree, hnodup, hapart⟩ := h
  have hbound : (body.substitute name value).bound = body.bound :=
    boundBy_substitute _ body hvar hvalue.plain.inert
  rw [bound_quantified, List.cons_append] at hnodup hapart
  refine ⟨hvars, fun a ha => ?_, ?_, fun a ha hb => hapart a ha ?_⟩
  · obtain ⟨ha, hn⟩ := mem_freeVariables_quantified.mp ha
    rcases mem_freeVariables_substitute hbody hvar ha with ⟨ha, hne⟩ | ha
    · refine hfree a (mem_freeVariables_quantified.mpr ⟨ha, fun hmem => ?_⟩)
      exact (List.mem_cons.mp hmem).elim hne hn
    · exact hscope a ha
  · rw [bound_quantified, hbound]
    exact (List.nodup_cons.mp hnodup).2
  · rw [bound_quantified, hbound] at hb
    exact List.mem_cons_of_mem _ hb

end

/-! ## one existential name -/

section

variable {D : Type u} {holds : Valuation D → Term → Prop} {v : Valuation D}

/-- an existential formula with one name more asks for a value of that name -/
theorem truth_any_cons (name : String) (names : List String) (body : Term) :
    (quantified Quantifier.any.name (name :: names) body).Truth holds v ↔
      ∃ d, (quantified Quantifier.any.name names body).Truth holds (Function.update v name d) := by
  simp only [truth_any]
  constructor
  · rintro ⟨w, hw, htrue⟩
    refine ⟨w name, w, fun a ha => ?_, htrue⟩
    by_cases he : a = name
    · rw [he, Function.update_self]
    · rw [Function.update_of_ne he]
      exact hw a fun hmem => (List.mem_cons.mp hmem).elim he ha
  · rintro ⟨d, w, hw, htrue⟩
    refine ⟨w, fun a ha => ?_, htrue⟩
    rw [List.mem_cons, not_or] at ha
    rw [hw a ha.2, Function.update_of_ne ha.1]

variable {M : Interpretation D} {universals names : List String} {name symbol : String}
  {body : Term}

/-- a Skolem term in the place of an existential name -/
theorem truth_any_ofSkolem (hvar : Name.isVariable name = true)
    (hsymbol : Name.isSkolem symbol = true) (hbody : body.IsFormula IsAtomicFormula .normal)
    (hnames : ∀ n ∈ names, Name.isVariable n = true)
    (h : InScope universals (.quantified Quantifier.any.name (name :: names) body)) :
    (quantified Quantifier.any.name names
        (body.substitute name (.ofSkolem symbol universals))).Truth M.holds v ↔
      (quantified Quantifier.any.name names body).Truth M.holds
        (Function.update v name (M.function symbol (universals.map v))) := by
  have hn : name ∉ names := by
    have hnodup := h.nodup
    rw [bound_quantified, List.cons_append, List.nodup_cons] at hnodup
    exact fun hmem => hnodup.1 (List.mem_append_left _ hmem)
  have hvalue := isIndividual_ofSkolem hsymbol h.areVariables
  rw [← substitute_quantified_of_not_mem hvar .any body hn,
    truth_substitute_individual (f := .normal) (.quantified trivial hnames hbody) hvar hvalue ?_ v,
    denote_ofSkolem M v hsymbol h.areVariables]
  intro a ha hb
  refine h.apart a (mem_freeVariables_ofSkolem hsymbol ha) ?_
  rw [bound_quantified] at hb ⊢
  exact List.mem_cons_of_mem _ hb

end

/-! ## a Skolemised formula -/

section

variable {universals symbols : List String} {t t' : Term}

theorem Skolemizes.isFormula (h : Skolemizes universals t symbols t') :
    t'.IsFormula IsAtomicFormula .universal := by
  induction h with
  | atomic ht => exact .atomic ht
  | literal ht => exact .literal ht
  | nil ho =>
    rcases ho with rfl | rfl
    · exact .conj fun x hx => absurd hx List.not_mem_nil
    · exact .disj fun x hx => absurd hx List.not_mem_nil
  | @cons _ _ _ o x x' xs xs' ho _ _ ihx ihxs =>
    have hparts : ∀ y ∈ x' :: xs', y.IsFormula IsAtomicFormula .universal := by
      intro y hy
      rcases List.mem_cons.mp hy with rfl | hy
      · exact ihx
      · exact ihxs.of_mem_args (fun _ => IsAtomicFormula.nonlogical) ho hy
    exact .of_parts ho hparts
  | all hnames _ ih => exact .quantified rfl hnames ih
  | any_nil _ ih => exact ih
  | any_cons _ _ _ _ _ ih => exact ih

theorem mem_atoms_any_ofSkolem {names : List String} {name symbol a : String} {body : Term}
    (h : a ∈ (quantified Quantifier.any.name names
      (body.substitute name (.ofSkolem symbol universals))).atoms) :
    a ∈ (quantified Quantifier.any.name (name :: names) body).atoms ∨ a = symbol ∨
      a ∈ universals := by
  simp only [quantified, app, atoms_list, List.flatMap_cons, List.flatMap_nil, atoms_atom,
    List.mem_append, List.append_nil, List.map_cons, List.mem_cons] at h ⊢
  rcases h with h | h | h
  · exact .inl (.inl h)
  · exact .inl (.inr (.inl (.inr h)))
  · rcases mem_atoms_substitute h with h | h
    · exact .inl (.inr (.inr h))
    · exact .inr (mem_atoms_ofSkolem h)

/-- Skolemising adds no names but the symbols and the variables in scope -/
theorem Skolemizes.mem_atoms (h : Skolemizes universals t symbols t')
    (hu : ∀ a ∈ universals, Name.isVariable a = true) {a : String} (ha : a ∈ t'.atoms) :
    a ∈ t.atoms ∨ a ∈ symbols ∨ Name.isVariable a = true := by
  induction h with
  | atomic _ => exact .inl ha
  | literal _ => exact .inl ha
  | nil _ => exact .inl ha
  | @cons _ _ _ o x x' xs xs' _ _ _ ihx ihxs =>
    simp only [apply, app, atoms_list, List.flatMap_cons, atoms_atom, List.mem_append,
      List.mem_cons] at ha ihxs ⊢
    rcases ha with ha | ha | ha
    · exact .inl (.inl ha)
    · rcases ihx hu ha with h | h | h
      · exact .inl (.inr (.inl h))
      · exact .inr (.inl (.inl h))
      · exact .inr (.inr h)
    · rcases ihxs hu (.inr ha) with (h | h) | h | h
      · exact .inl (.inl h)
      · exact .inl (.inr (.inr h))
      · exact .inr (.inl (.inr h))
      · exact .inr (.inr h)
  | @all universals names symbols body body' hnames _ ih =>
    have hscope : ∀ a ∈ universals ++ names, Name.isVariable a = true :=
      fun a ha => (List.mem_append.mp ha).elim (hu a) (hnames a)
    simp only [quantified, app, atoms_list, List.flatMap_cons, List.flatMap_nil, atoms_atom,
      List.mem_append, List.append_nil] at ha ⊢
    rcases ha with ha | ha | ha
    · exact .inl (.inl ha)
    · exact .inl (.inr (.inl ha))
    · exact (ih hscope ha).imp_left fun h => .inr (.inr h)
  | any_nil _ ih => exact (ih hu ha).imp_left fun h => mem_atoms_app (by simp) h
  | @any_cons universals names symbols name symbol body t' _ _ _ _ _ ih =>
    rcases ih hu ha with h | h | h
    · rcases mem_atoms_any_ofSkolem h with h | rfl | h
      · exact .inl h
      · exact .inr (.inl List.mem_cons_self)
      · exact .inr (.inr (hu a h))
    · exact .inr (.inl (List.mem_cons_of_mem _ h))
    · exact .inr (.inr h)

/-- Skolemising adds no bound names -/
theorem Skolemizes.sublist_bound (h : Skolemizes universals t symbols t')
    (hu : ∀ a ∈ universals, Name.isVariable a = true) : t'.bound.Sublist t.bound := by
  induction h with
  | atomic _ => exact .refl _
  | literal _ => exact .refl _
  | nil _ => exact .refl _
  | @cons _ _ _ o x x' xs xs' ho _ _ ihx ihxs =>
    have hq : Name.isQuantifier o.name = false := by rcases ho with rfl | rfl <;> decide
    have htail := ihxs hu
    rw [apply, apply, bound_app hq, bound_app hq] at htail ⊢
    rw [List.flatMap_cons, List.flatMap_cons]
    exact (ihx hu).append htail
  | @all universals names symbols body body' hnames _ ih =>
    rw [bound_quantified, bound_quantified]
    exact .append (.refl _) (ih fun a ha => (List.mem_append.mp ha).elim (hu a) (hnames a))
  | any_nil _ ih =>
    rw [bound_quantified]
    exact ih hu
  | @any_cons universals names symbols name symbol body t' hvar _ hsymbol hbody _ ih =>
    have hvalue := isIndividual_ofSkolem hsymbol hu
    have hbound : (body.substitute name (.ofSkolem symbol universals)).bound = body.bound :=
      boundBy_substitute _ body hvar hvalue.plain.inert
    have hold := ih hu
    rw [bound_quantified, hbound] at hold
    rw [bound_quantified]
    exact .cons name hold

/-- the free variables stay in scope -/
theorem Skolemizes.inScope (h : Skolemizes universals t symbols t')
    (hscope : InScope universals t) : InScope universals t' := by
  have hbound := h.sublist_bound hscope.areVariables
  refine ⟨hscope.areVariables, ?_, hscope.nodup.sublist hbound,
    fun a ha hb => hscope.apart a ha (hbound.subset hb)⟩
  clear hbound
  induction h with
  | atomic _ => exact hscope.free
  | literal _ => exact hscope.free
  | nil _ => exact hscope.free
  | @cons _ _ _ o x x' xs xs' ho _ _ ihx ihxs =>
    have hq : Name.isQuantifier o.name = false := by rcases ho with rfl | rfl <;> decide
    have hv : Name.isVariable o.name = false := by rcases ho with rfl | rfl <;> decide
    obtain ⟨hx, hxs⟩ := hscope.cons ho
    intro a ha
    obtain ⟨y, hy, hay⟩ := (mem_freeVariables_app hq hv).mp ha
    rcases List.mem_cons.mp hy with rfl | hy
    · exact ihx hx a hay
    · exact ihxs hxs a ((mem_freeVariables_app hq hv).mpr ⟨y, hy, hay⟩)
  | all hnames _ ih =>
    intro a ha
    obtain ⟨ha, hn⟩ := mem_freeVariables_quantified.mp ha
    exact (List.mem_append.mp (ih (hscope.all hnames) a ha)).resolve_right hn
  | any_nil _ ih => exact ih hscope.any_nil
  | any_cons hvar _ hsymbol hbody _ ih =>
    exact ih (hscope.any_cons hvar (isIndividual_ofSkolem hsymbol hscope.areVariables)
      (fun a ha => mem_freeVariables_ofSkolem hsymbol ha) hbody)

variable {D : Type u} {M : Interpretation D}

theorem truth_apply_cons {holds : Valuation D → Term → Prop} {v : Valuation D} {o : Operator}
    (ho : o = .conj ∨ o = .disj) {x : Term} {xs : List Term} :
    (apply o (x :: xs)).Truth holds v ↔
      (o = .conj ∧ x.Truth holds v ∧ (apply o xs).Truth holds v) ∨
        o = .disj ∧ (x.Truth holds v ∨ (apply o xs).Truth holds v) := by
  rcases ho with rfl | rfl
  · rw [← Term.conj, ← Term.conj, truth_conj, truth_conj]
    simp
  · rw [← Term.disj, ← Term.disj, truth_disj, truth_disj]
    simp

/-- more true parts make more true conjunctions and disjunctions -/
theorem truth_apply_cons_mono {holds holds' : Valuation D → Term → Prop} {v : Valuation D}
    {o : Operator} (ho : o = .conj ∨ o = .disj) {x x' : Term} {xs xs' : List Term}
    (hx : x.Truth holds v → x'.Truth holds' v)
    (hxs : (apply o xs).Truth holds v → (apply o xs').Truth holds' v)
    (h : (apply o (x :: xs)).Truth holds v) : (apply o (x' :: xs')).Truth holds' v := by
  rw [truth_apply_cons ho] at h ⊢
  exact h.imp (fun h => ⟨h.1, hx h.2.1, hxs h.2.2⟩) fun h => ⟨h.1, h.2.imp hx hxs⟩

/-- where the Skolemised formula is true, the formula is -/
theorem Skolemizes.sound (h : Skolemizes universals t symbols t')
    (hscope : InScope universals t) {v : Valuation D} (htrue : t'.Truth M.holds v) :
    t.Truth M.holds v := by
  induction h generalizing v with
  | atomic _ => exact htrue
  | literal _ => exact htrue
  | nil _ => exact htrue
  | cons ho _ _ ihx ihxs =>
    obtain ⟨hx, hxs⟩ := hscope.cons ho
    exact truth_apply_cons_mono ho (ihx hx) (ihxs hxs) htrue
  | all hnames _ ih =>
    rw [truth_all] at htrue ⊢
    exact fun w hw => ih (hscope.all hnames) (htrue w hw)
  | any_nil _ ih => exact (truth_quantified_nil .any _).mpr (ih hscope.any_nil htrue)
  | any_cons hvar hnames hsymbol hbody _ ih =>
    have hstep := ih (hscope.any_cons hvar (isIndividual_ofSkolem hsymbol hscope.areVariables)
      (fun a ha => mem_freeVariables_ofSkolem hsymbol ha) hbody) htrue
    exact (truth_any_cons _ _ _).mpr
      ⟨_, (truth_any_ofSkolem hvar hsymbol hbody hnames hscope).mp hstep⟩

/-- one value of an existential name for all values that the variables in scope can have -/
theorem exists_function [Nonempty D] {names : List String} {name : String} {body : Term}
    (hbody : body.IsFormula IsAtomicFormula .normal)
    (hnames : ∀ n ∈ names, Name.isVariable n = true)
    (hscope : InScope universals (.quantified Quantifier.any.name (name :: names) body)) :
    ∃ g : List D → D, ∀ v,
      (quantified Quantifier.any.name (name :: names) body).Truth M.holds v →
        (quantified Quantifier.any.name names body).Truth M.holds
          (Function.update v name (g (universals.map v))) := by
  let fits (values : List D) (d : D) : Prop := ∃ v, universals.map v = values ∧
    (quantified Quantifier.any.name names body).Truth M.holds (Function.update v name d)
  refine ⟨fun values => Classical.epsilon (fits values), fun v htrue => ?_⟩
  obtain ⟨d, hd⟩ := (truth_any_cons _ _ _).mp htrue
  obtain ⟨w, hw, htrue'⟩ : fits (universals.map v) (Classical.epsilon (fits (universals.map v))) :=
    Classical.epsilon_spec ⟨d, v, rfl, hd⟩
  refine (truth_congr (local_isAtomicFormula M) (f := .normal)
    (.quantified trivial hnames hbody) fun a ha => ?_).mp htrue'
  by_cases he : a = name
  · rw [he, Function.update_self, Function.update_self]
  · rw [Function.update_of_ne he, Function.update_of_ne he]
    obtain ⟨ha, hn⟩ := mem_freeVariables_quantified.mp ha
    refine List.map_inj_left.mp hw a (hscope.free a (mem_freeVariables_quantified.mpr ⟨ha, ?_⟩))
    exact fun hmem => (List.mem_cons.mp hmem).elim he hn

theorem Skolemizes.isSkolem (h : Skolemizes universals t symbols t') :
    ∀ f ∈ symbols, Name.isSkolem f = true := by
  induction h with
  | atomic _ | literal _ | nil _ => exact fun f hf => absurd hf List.not_mem_nil
  | cons _ _ _ ihx ihxs => exact fun f hf => (List.mem_append.mp hf).elim (ihx f) (ihxs f)
  | all _ _ ih => exact ih
  | any_nil _ ih => exact ih
  | any_cons _ _ hsymbol _ _ ih =>
    intro f hf
    rcases List.mem_cons.mp hf with rfl | hf
    · exact hsymbol
    · exact ih f hf

theorem Skolemizes.not_mem_of_areVariables (h : Skolemizes universals t symbols t')
    {names : List String} (hnames : ∀ a ∈ names, Name.isVariable a = true) {f : String}
    (hf : f ∈ symbols) : f ∉ names := by
  intro hmem
  have hvariable := hnames f hmem
  rw [(Name.isConstant_of_isSkolem (h.isSkolem f hf)).1] at hvariable
  cases hvariable

/-- a function for a new symbol gives the values for which a formula with a first existential name is
true -/
theorem exists_withFunction [Nonempty D] {names : List String} {name symbol : String} {body : Term}
    (hvar : Name.isVariable name = true) (hnames : ∀ a ∈ names, Name.isVariable a = true)
    (hsymbol : Name.isSkolem symbol = true) (hbody : body.IsFormula IsAtomicFormula .normal)
    (hscope : InScope universals (quantified Quantifier.any.name (name :: names) body))
    (hfresh : symbol ∉ (quantified Quantifier.any.name (name :: names) body).atoms)
    (M : Interpretation D) :
    ∃ g, ∀ v, (quantified Quantifier.any.name (name :: names) body).Truth M.holds v →
      (quantified Quantifier.any.name names
        (body.substitute name (.ofSkolem symbol universals))).Truth
          (M.withFunction symbol g).holds v := by
  obtain ⟨g, hg⟩ := exists_function (M := M) hbody hnames hscope
  refine ⟨g, fun v htrue => ?_⟩
  rw [truth_any_ofSkolem hvar hsymbol hbody hnames hscope]
  show (quantified Quantifier.any.name names body).Truth _
    (Function.update v name (Function.update M.function symbol g symbol (universals.map v)))
  rw [Function.update_self]
  refine (truth_of_agreeOff (f := .normal) (M.agreeOff_withFunction symbol g)
    (.quantified trivial hnames hbody) fun f hf => ?_).mp (hg v htrue)
  rintro rfl
  refine hfresh ?_
  simp only [quantified, app, atoms_list, List.flatMap_cons, List.flatMap_nil, atoms_atom,
    List.mem_append, List.append_nil, List.map_cons, List.mem_cons] at hf ⊢
  exact hf.imp_right fun h => h.imp_left .inr

/-- where the formula is true, the Skolemised one is for some functions in place of those of the
symbols, which must be all different and none of the formula's own -/
theorem Skolemizes.complete [Nonempty D] (h : Skolemizes universals t symbols t')
    (hscope : InScope universals t) (ht : t.IsFormula IsAtomicFormula .normal)
    (hnodup : symbols.Nodup) (hfresh : ∀ f ∈ symbols, f ∉ t.atoms) (M : Interpretation D) :
    ∃ N, M.AgreeOff (· ∈ symbols) N ∧ ∀ v, t.Truth M.holds v → t'.Truth N.holds v := by
  induction h generalizing M with
  | atomic _ => exact ⟨M, .refl _ M, fun _ h => h⟩
  | literal _ => exact ⟨M, .refl _ M, fun _ h => h⟩
  | nil _ => exact ⟨M, .refl _ M, fun _ h => h⟩
  | @cons universals symbols symbols' o x x' xs xs' ho hx hxs ihx ihxs =>
    obtain ⟨hscopex, hscopexs⟩ := hscope.cons ho
    obtain ⟨hnodupx, hnodupxs, hdisjoint⟩ := List.nodup_append.mp hnodup
    have hformx : x.IsFormula IsAtomicFormula .normal :=
      ht.of_mem_args (fun _ => IsAtomicFormula.nonlogical) ho (by simp)
    have hformxs : (apply o xs).IsFormula IsAtomicFormula .normal :=
      .of_parts ho fun y hy =>
        ht.of_mem_args (fun _ => IsAtomicFormula.nonlogical) ho (List.mem_cons_of_mem _ hy)
    have hfreshx : ∀ f ∈ symbols ++ symbols', f ∉ x.atoms := fun f hf hx =>
      hfresh f hf (mem_atoms_app (by simp) hx)
    have hfreshxs : ∀ f ∈ symbols ++ symbols', f ∉ (apply o xs).atoms := by
      intro f hf hmem
      refine hfresh f hf ?_
      simp only [apply, app, atoms_list, List.flatMap_cons, List.mem_append] at hmem ⊢
      exact hmem.imp_right .inr
    obtain ⟨N, hN, htruthx⟩ := ihx hscopex hformx hnodupx
      (fun f hf => hfreshx f (List.mem_append_left _ hf)) M
    obtain ⟨K, hK, htruthxs⟩ := ihxs hscopexs hformxs hnodupxs
      (fun f hf => hfreshxs f (List.mem_append_right _ hf)) N
    refine ⟨K, hN.trans hK (fun f => List.mem_append_left _) fun f => List.mem_append_right _,
      fun v => truth_apply_cons_mono ho (fun htrue => ?_) fun htrue => ?_⟩
    · -- the functions chosen later are not those of the first part
      refine (truth_of_agreeOff hK hx.isFormula fun f hf hf' => ?_).mp (htruthx v htrue)
      rcases hx.mem_atoms hscope.areVariables hf with h | h | h
      · exact hfreshx f (List.mem_append_right _ hf') h
      · exact hdisjoint f h f hf' rfl
      · rw [(Name.isConstant_of_isSkolem (hxs.isSkolem f hf')).1] at h
        cases h
    · refine htruthxs v ((truth_of_agreeOff hN hformxs fun f hf hf' => ?_).mp htrue)
      exact hfreshxs f (List.mem_append_left _ hf') hf
  | @all universals names symbols body body' hnames _ ih =>
    obtain ⟨N, hN, htruth⟩ :=
      ih (hscope.all hnames) (ht.of_quantified fun _ => IsAtomicFormula.nonlogical).2 hnodup
      (fun f hf hmem => hfresh f hf (mem_atoms_app (by simp) hmem)) M
    refine ⟨N, hN, fun v htrue => ?_⟩
    rw [truth_all] at htrue ⊢
    exact fun w hw => htruth w (htrue w hw)
  | any_nil _ ih =>
    obtain ⟨N, hN, htruth⟩ := ih hscope.any_nil (ht.of_quantified fun _ => IsAtomicFormula.nonlogical).2 hnodup
      (fun f hf hmem => hfresh f hf (mem_atoms_app (by simp) hmem)) M
    exact ⟨N, hN, fun v htrue => htruth v ((truth_quantified_nil .any _).mp htrue)⟩
  | @any_cons universals names symbols name symbol body t' hvar hnames hsymbol hbody hsk ih =>
    have hvalue := isIndividual_ofSkolem hsymbol hscope.areVariables
    have hscope' := hscope.any_cons hvar hvalue
      (fun a ha => mem_freeVariables_ofSkolem hsymbol ha) hbody
    rw [List.nodup_cons] at hnodup
    obtain ⟨g, hg⟩ := exists_withFunction hvar hnames hsymbol hbody hscope
      (hfresh symbol List.mem_cons_self) M
    have hfresh' : ∀ f ∈ symbols, f ∉ (quantified Quantifier.any.name names
        (body.substitute name (.ofSkolem symbol universals))).atoms := by
      intro f hf hmem
      rcases mem_atoms_any_ofSkolem hmem with h | rfl | h
      · exact hfresh f (List.mem_cons_of_mem _ hf) h
      · exact hnodup.1 hf
      · exact hsk.not_mem_of_areVariables hscope.areVariables hf h
    obtain ⟨N, hN, htruth⟩ := ih hscope' (.quantified trivial hnames
      (hbody.substitute hvar fun _ ha => ha.substitute hvar hvalue)) hnodup.2 hfresh'
      (M.withFunction symbol g)
    exact ⟨N, (M.agreeOff_withFunction symbol g).trans hN (fun f hf => by simp [hf])
      (fun f hf => by simp [hf]), fun v htrue => htruth v (hg v htrue)⟩

end

/-! ## all existential names -/

section

variable {D : Type u} {t : Term}

theorem Apart.inScope (h : t.Apart) : InScope t.freeVariables t :=
  ⟨fun _ ha => isVariable_of_mem_freeVariables ha, fun _ ha => ha, h.nodup, h.disjoint⟩

theorem existentialsOut_spec (ht : t.IsFormula IsAtomicFormula .normal) (s : Supply) :
    SkolemizedBy t.freeVariables t s (t.existentialsOut s) :=
  skolemize_spec t.freeVariables t (fun _ ha => isVariable_of_mem_freeVariables ha) ht s

theorem mem_atoms_existentialsOut (ht : t.IsFormula IsAtomicFormula .normal) {s : Supply} {a : String}
    (ha : a ∈ (t.existentialsOut s).1.atoms) :
    a ∈ t.atoms ∨ Name.isSkolem a = true ∨ Name.isVariable a = true := by
  obtain ⟨symbols, _, _, hsymbols, hsk⟩ := existentialsOut_spec ht s
  exact (hsk.mem_atoms (fun _ ha => isVariable_of_mem_freeVariables ha) ha).imp_right
    (Or.imp_left (hsymbols a))

/-- a Skolemised formula is one with universal quantifiers only, it implies the formula, and it is true
where the formula is for some functions in place of those of Skolem symbols -/
theorem existentialsOut_keeps (ht : t.IsFormula IsAtomicFormula .normal) (hapart : t.Apart)
    (hfresh : ∀ f ∈ t.atoms, Name.isSkolem f = false) {s : Supply}
    (hdraws : t.existentials.length < 2 ^ 32) :
    (t.existentialsOut s).1.IsFormula IsAtomicFormula .universal ∧
      (t.existentialsOut s).1.Apart ∧
      (∀ M : Interpretation D, M.Models (t.existentialsOut s).1 → M.Models t) ∧
      ∀ M : Interpretation D, Nonempty D → M.Models t →
        ∃ N, M.AgreeOff (Name.isSkolem · = true) N ∧ N.Models (t.existentialsOut s).1 := by
  obtain ⟨symbols, hdrawn, hlen, hsymbols, hsk⟩ := existentialsOut_spec ht s
  have hscope := hsk.inScope hapart.inScope
  refine ⟨hsk.isFormula, ⟨hscope.nodup, fun a ha => hscope.apart a (hscope.free a ha)⟩,
    fun M hmodels v => hsk.sound hapart.inScope (hmodels v), fun M hD hmodels => ?_⟩
  obtain ⟨N, hN, htruth⟩ := hsk.complete hapart.inScope ht (hdrawn.nodup (hlen ▸ hdraws))
    (fun f hf hmem => by
      have hskolem := hsymbols f hf
      rw [hfresh f hmem] at hskolem
      cases hskolem) M
  exact ⟨N, ⟨hN.1, fun f hf => hN.2 f fun hmem => hf (hsymbols f hmem)⟩,
    fun v => htruth v (hmodels v)⟩

end

end Term

end OntologyPrep
