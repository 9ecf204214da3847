import OntologyPrep.Normal.Skolem
import OntologyPrep.Proofs.Fresh.Drawn
import OntologyPrep.Proofs.Meaning.Substitution
import OntologyPrep.Proofs.State
import OntologyPrep.Proofs.Term.Substitution

/-!
# Skolem terms in a formula

`Term.Skolemizes U symbols t t'` says, without a supply, that `t'` is `t` with a term of its own for
each existential name, made of one of the symbols and the universals in scope.  `Term.skolemize_spec`
ties it to `Term.skolemize`: the symbols are drawn one after another, one for each existential name.
-/

namespace OntologyPrep

universe u

/-! ## Skolem symbols -/

theorem Name.isConstant_of_isSkolem {a : String} (h : isSkolem a = true) : IsConstant a := by
  have hS : ∃ rest, a.toList = 'S' :: rest := by
    unfold isSkolem at h
    split at h
    · next he => exact ⟨_, he⟩
    · next he => exact ⟨_, he⟩
    · cases h
  obtain ⟨rest, hrest⟩ := hS
  constructor
  · rw [isVariable, isPlainVariable, isRowVariable, hrest]
    rfl
  · cases ho : isOperator a with
    | false => rfl
    | true =>
      obtain ⟨o, ho⟩ := Option.isSome_iff_exists.mp ho
      rw [← Operator.name_of_ofName? ho] at hrest
      rcases o with _ | _ | _ | _ | _ | (_ | _) <;> cases hrest

theorem Name.isNumeral_toString (n : Nat) : isNumeral (toString n).toList = true := by
  have hne : (toString n).toList ≠ [] := by
    rw [show toString n = n.repr from rfl, Nat.toList_repr]
    exact Nat.toDigits_ne_nil
  rw [isNumeral, Bool.and_eq_true, List.all_eq_true, Bool.not_eq_true', List.isEmpty_eq_false_iff]
  exact ⟨hne, fun c hc => Supply.isDigit_of_mem_toString hc⟩

theorem Name.isSkolem_constant (n : Nat) : isSkolem ("Sk" ++ toString n) = true := by
  have hdigits := isNumeral_toString n
  have hlist : ("Sk" ++ toString n).toList = 'S' :: 'k' :: (toString n).toList :=
    String.toList_append
  rw [isSkolem, hlist]
  generalize (toString n).toList = digits at hdigits
  split
  · next rest he =>
    obtain rfl : digits = 'F' :: 'n' :: rest := (List.cons.inj (List.cons.inj he).2).2
    cases hdigits
  · next rest _ he =>
    obtain rfl : digits = rest := (List.cons.inj (List.cons.inj he).2).2
    exact hdigits
  · next hne => exact absurd rfl (hne _)

theorem Name.isSkolem_function (n : Nat) : isSkolem ("SkFn" ++ toString n) = true := by
  rw [isSkolem, String.toList_append]
  exact isNumeral_toString n

/-- the term that a Skolem symbol makes of the universals in scope -/
def Term.ofSkolem (symbol : String) : List String → Term
  | [] => .atom symbol
  | u :: us => .app symbol ((u :: us).map .atom)

/-- the Skolem symbol that is drawn next -/
def Supply.skolemSymbol (universals : List String) (s : Supply) : String :=
  (if universals = [] then "Sk" else "SkFn") ++ s.next.index

theorem Supply.skolem_eq (universals : List String) (s : Supply) :
    skolem universals s = (.ofSkolem (skolemSymbol universals s) universals, s.next) := by
  cases universals with
  | nil => rfl
  | cons u us => rfl

theorem Supply.isSkolem_skolemSymbol (universals : List String) (s : Supply) :
    Name.isSkolem (skolemSymbol universals s) = true := by
  unfold skolemSymbol
  split
  · exact Name.isSkolem_constant _
  · exact Name.isSkolem_function _

theorem Supply.Drawn.cons_skolem (universals : List String) {s s' : Supply} {names : List String}
    (h : Drawn s.next names s') : Drawn s (skolemSymbol universals s :: names) s' := by
  refine .cons ?_ h
  split <;> decide

namespace Term

section

variable {symbol : String} {universals : List String}

theorem isIndividual_ofSkolem (hs : Name.isSkolem symbol = true)
    (hu : ∀ a ∈ universals, Name.isVariable a = true) : (ofSkolem symbol universals).IsIndividual := by
  have hconstant := Name.isConstant_of_isSkolem hs
  cases universals with
  | nil => exact .const hconstant
  | cons u us => exact .app hconstant (List.forall_mem_map.mpr fun a ha => .var (hu a ha))

theorem mem_freeVariables_ofSkolem (hs : Name.isSkolem symbol = true) {a : String}
    (h : a ∈ (ofSkolem symbol universals).freeVariables) : a ∈ universals := by
  have hconstant := Name.isConstant_of_isSkolem hs
  cases universals with
  | nil =>
    have hvar := (mem_freeVariables_atom.mp h).1
    rw [hconstant.1] at hvar
    cases hvar
  | cons u us =>
    obtain ⟨x, hx, ha⟩ := (mem_freeVariables_app hconstant.not_quantifier hconstant.1).mp h
    obtain ⟨b, hb, rfl⟩ := List.mem_map.mp hx
    rw [(mem_freeVariables_atom.mp ha).2]
    exact hb

theorem mem_atoms_ofSkolem {a : String} (h : a ∈ (ofSkolem symbol universals).atoms) :
    a = symbol ∨ a ∈ universals := by
  cases universals with
  | nil => exact .inl (by simpa [ofSkolem] using h)
  | cons u us => simpa [ofSkolem, app, List.mem_flatMap] using h

/-- a Skolem term denotes what the function of its symbol makes of the values in scope -/
theorem denote_ofSkolem {D : Type u} (M : Interpretation D) (v : Valuation D)
    (hs : Name.isSkolem symbol = true) (hu : ∀ a ∈ universals, Name.isVariable a = true) :
    M.denote v (ofSkolem symbol universals) = M.function symbol (universals.map v) := by
  cases universals with
  | nil => exact Interpretation.denote_constant _ _ (Name.isConstant_of_isSkolem hs).1
  | cons u us =>
    rw [ofSkolem, Interpretation.denote_app, List.map_map]
    exact congrArg _ (List.map_congr_left fun a ha => Interpretation.denote_variable _ _ (hu a ha))

end

/-! ## bound names -/

/-- a list without quantified formulas is none -/
theorem binder?_of_binders {xs : List Term} (h : (list xs).binders = 0) : (list xs).binder? = none := by
  rw [binders_list] at h
  by_cases hsome : (list xs).binder?.isSome = true
  · rw [if_pos hsome] at h
    omega
  · exact Option.not_isSome_iff_eq_none.mp hsome

theorem boundBy_of_binders (kind : Quantifier → Bool) {t : Term} (h : t.binders = 0) :
    t.boundBy kind = [] := by
  match t with
  | .atom a => rw [boundBy_atom]
  | .list xs =>
    rw [boundBy_list kind (binder?_of_binders h)]
    refine List.flatMap_eq_nil_iff.mpr fun x hx => boundBy_of_binders kind ?_
    have := binders_le_of_mem hx
    omega

/-- a list that is no quantified formula and has none in its elements -/
theorem binders_eq_zero {xs : List Term} (hb : (list xs).binder? = none)
    (h : ∀ x ∈ xs, x.binders = 0) : (list xs).binders = 0 := by
  have hsum : total (xs.map Term.binders) = 0 := by
    clear hb
    induction xs with
    | nil => rfl
    | cons y ys ih =>
      obtain ⟨hy, hys⟩ := List.forall_mem_cons.mp h
      rw [List.map_cons, total_cons, hy, ih hys]
  rw [binders_list, hb, hsum]
  rfl

theorem Nonlogical.binders {t : Term} (h : t.Nonlogical) : t.binders = 0 := by
  match t with
  | .atom a => rw [Term.binders]
  | .list xs => exact binders_eq_zero h.binder?_eq_none fun x hx => (h.of_mem hx).binders

theorem Plain.inert {t : Term} (h : t.Plain) : t.Inert := by
  refine ⟨h.nonlogical.binders, fun q he => ?_⟩
  have hq := h q.name (by simp [he])
  rw [Name.isOperator_of_isQuantifier (by simp [Name.isQuantifier])] at hq
  cases hq

theorem Nonlogical.boundBy (kind : Quantifier → Bool) {t : Term} (h : t.Nonlogical) : t.boundBy kind = [] :=
  boundBy_of_binders kind h.binders

/-- no bound name comes or goes -/
theorem boundBy_substitute (kind : Quantifier → Bool) (t : Term) {name : String} {value : Term}
    (hvar : Name.isVariable name = true) (hvalue : value.Inert) :
    (t.substitute name value).boundBy kind = t.boundBy kind := by
  induction t using binderInduction with
  | atom a =>
    rw [substitute_atom]
    split
    · rw [boundBy_of_binders kind hvalue.1, boundBy_atom]
    · rfl
  | binder b ih =>
    by_cases hn : name ∈ b.names
    · rw [substitute_of_bound value (by rwa [boundNames_binder])]
    · rw [substitute_toTerm hvar hn, boundBy_binder, boundBy_binder, names_substitute hn]
      show _ ++ (b.body.substitute name value).boundBy kind = _
      rw [ih]
      rfl
  | list xs hb ih =>
    have hbound : name ∉ (list xs).boundNames := by
      rw [boundNames_of_binder?_eq_none hb]
      exact List.not_mem_nil
    have hb' : (list (xs.map fun x => x.substitute name value)).binder? = none :=
      binder?_map_substitute hvalue.2 hb
    rw [substitute_list value hbound, boundBy_list kind hb', boundBy_list kind hb, List.flatMap_map,
      List.flatMap_def, List.flatMap_def, List.map_congr_left ih]

/-! ## one run -/

theorem skolemize_binder_all (universals : List String) {b : Binder} (hall : b.quantifier = .all)
    (s : Supply) : b.toTerm.skolemize universals s =
      (.quantified Quantifier.all.name b.names (b.body.skolemize (universals ++ b.names) s).1,
        (b.body.skolemize (universals ++ b.names) s).2) := by
  have hb := binder?_toTerm b
  have hrun : b.toTerm.skolemize universals = fun s =>
      (.quantified Quantifier.all.name b.names (b.body.skolemize (universals ++ b.names) s).1,
        (b.body.skolemize (universals ++ b.names) s).2) := by
    rw [Binder.toTerm] at hb ⊢
    rw [skolemize]
    split
    · next b' hb' =>
      obtain rfl := Option.some.inj (hb'.symm.trans hb)
      rw [hall]
      rfl
    · next hn =>
      rw [hb] at hn
      cases hn
  exact congrFun hrun s

theorem skolemize_binder_any (universals : List String) {b : Binder} (hany : b.quantifier = .any)
    (s : Supply) : b.toTerm.skolemize universals s =
      (skolemizeNames universals b.names b.body s).1.skolemize universals
        (skolemizeNames universals b.names b.body s).2 := by
  have hb := binder?_toTerm b
  have hrun : b.toTerm.skolemize universals = fun s =>
      (skolemizeNames universals b.names b.body s).1.skolemize universals
        (skolemizeNames universals b.names b.body s).2 := by
    rw [Binder.toTerm] at hb ⊢
    rw [skolemize]
    split
    · next b' hb' =>
      obtain rfl := Option.some.inj (hb'.symm.trans hb)
      rw [hany]
    · next hn =>
      rw [hb] at hn
      cases hn
  exact congrFun hrun s

theorem skolemize_quantified_all (universals names : List String) (body : Term) (s : Supply) :
    (quantified Quantifier.all.name names body).skolemize universals s =
      (.quantified Quantifier.all.name names (body.skolemize (universals ++ names) s).1,
        (body.skolemize (universals ++ names) s).2) := by
  rw [quantified_eq_toTerm, skolemize_binder_all universals rfl, names_quantified]

theorem skolemize_quantified_any (universals names : List String) (body : Term) (s : Supply) :
    (quantified Quantifier.any.name names body).skolemize universals s =
      (skolemizeNames universals names body s).1.skolemize universals
        (skolemizeNames universals names body s).2 := by
  rw [quantified_eq_toTerm, skolemize_binder_any universals rfl, names_quantified]

theorem skolemize_list (universals : List String) {xs : List Term}
    (hb : (list xs).binder? = none) (s : Supply) : (list xs).skolemize universals s =
      (.list (xs.mapM (skolemize universals) s).1, (xs.mapM (skolemize universals) s).2) := by
  have hrun : (list xs).skolemize universals = fun s =>
      (.list (xs.mapM (skolemize universals) s).1, (xs.mapM (skolemize universals) s).2) := by
    rw [skolemize]
    split
    · next b hb' =>
      rw [hb] at hb'
      cases hb'
    · rfl
  exact congrFun hrun s

theorem skolemize_app (universals : List String) {head : String}
    (hq : Name.isQuantifier head = false) (args : List Term) (s : Supply) :
    (app head args).skolemize universals s =
      (app head (args.mapM (skolemize universals) s).1,
        (args.mapM (skolemize universals) s).2) := by
  have hhead : (Term.atom head).skolemize universals = pure (.atom head) := by rw [skolemize]
  rw [app, skolemize_list universals (binder?_app_eq_none args hq)]
  simp only [State.mapM_cons_apply, hhead, State.pure_apply]
  rfl

/-- a term without quantified formulas stays as it is -/
theorem skolemize_of_binders (universals : List String) {t : Term} (h : t.binders = 0) (s : Supply) :
    t.skolemize universals s = (t, s) := by
  match t with
  | .atom a => rw [Term.skolemize, State.pure_apply]
  | .list xs =>
    have hparts : ∀ x ∈ xs, x.binders = 0 := fun x hx => Nat.le_zero.mp (h ▸ binders_le_of_mem hx)
    rw [skolemize_list universals (binder?_of_binders h),
      State.mapM_eq_self fun x hx s => skolemize_of_binders universals (hparts x hx) s]

theorem Nonlogical.skolemize (universals : List String) {t : Term} (h : t.Nonlogical) (s : Supply) :
    t.skolemize universals s = (t, s) := skolemize_of_binders universals h.binders s

theorem Nonlogical.skolemize_neg (universals : List String) {t : Term} (h : t.Nonlogical) (s : Supply) :
    t.neg.skolemize universals s = (t.neg, s) := by
  rw [neg, apply, skolemize_app universals (by decide), State.mapM_cons_apply,
    h.skolemize universals]
  rfl

/-- the second formula is the first one with terms of the symbols in place of existential names; in
scope are the given universals -/
inductive Skolemizes : List String → Term → List String → Term → Prop where
  | atomic {universals : List String} {t : Term} : t.IsAtomicFormula →
    Skolemizes universals t [] t
  | literal {universals : List String} {t : Term} : t.IsAtomicFormula →
    Skolemizes universals t.neg [] t.neg
  | nil {universals : List String} {o : Operator} : o = .conj ∨ o = .disj →
    Skolemizes universals (.apply o []) [] (.apply o [])
  | cons {universals symbols symbols' : List String} {o : Operator} {x x' : Term}
    {xs xs' : List Term} : o = .conj ∨ o = .disj → Skolemizes universals x symbols x' →
    Skolemizes universals (.apply o xs) symbols' (.apply o xs') →
    Skolemizes universals (.apply o (x :: xs)) (symbols ++ symbols') (.apply o (x' :: xs'))
  | all {universals names symbols : List String} {body body' : Term} :
    (∀ n ∈ names, Name.isVariable n = true) →
    Skolemizes (universals ++ names) body symbols body' →
    Skolemizes universals (.quantified Quantifier.all.name names body) symbols
      (.quantified Quantifier.all.name names body')
  | any_nil {universals symbols : List String} {body body' : Term} :
    Skolemizes universals body symbols body' →
    Skolemizes universals (.quantified Quantifier.any.name [] body) symbols body'
  | any_cons {universals names symbols : List String} {name symbol : String} {body t' : Term} :
    Name.isVariable name = true → (∀ n ∈ names, Name.isVariable n = true) →
    Name.isSkolem symbol = true → body.IsFormula IsAtomicFormula .normal →
    Skolemizes universals (.quantified Quantifier.any.name names
      (body.substitute name (.ofSkolem symbol universals))) symbols t' →
    Skolemizes universals (.quantified Quantifier.any.name (name :: names) body)
      (symbol :: symbols) t'

/-- the formula is Skolemised with symbols drawn one after another, one for each existential name -/
def SkolemizedBy (universals : List String) (t : Term) (s : Supply) (r : Term × Supply) : Prop :=
  ∃ symbols, s.Drawn symbols r.2 ∧ symbols.length = t.existentials.length ∧
    (∀ f ∈ symbols, Name.isSkolem f = true) ∧ Skolemizes universals t symbols r.1

theorem SkolemizedBy.any {universals names : List String} {body : Term} {s : Supply}
    {r : Term × Supply} (hu : ∀ a ∈ universals, Name.isVariable a = true)
    (hnames : ∀ n ∈ names, Name.isVariable n = true)
    (hbody : body.IsFormula IsAtomicFormula .normal)
    (h : SkolemizedBy universals (skolemizeNames universals names body s).1
      (skolemizeNames universals names body s).2 r) :
    SkolemizedBy universals (.quantified Quantifier.any.name names body) s r := by
  induction names generalizing body s with
  | nil =>
    obtain ⟨symbols, hdrawn, hlen, hsymbols, hsk⟩ := h
    refine ⟨symbols, hdrawn, ?_, hsymbols, .any_nil hsk⟩
    rw [hlen, existentials, existentials, boundBy_quantified]
    rfl
  | cons name names ih =>
    have hvar := hnames name (by simp)
    have hvars : ∀ n ∈ names, Name.isVariable n = true := fun n hn => hnames n (by simp [hn])
    have hskolem := Supply.isSkolem_skolemSymbol universals s
    have hvalue := isIndividual_ofSkolem hskolem hu
    have hinert := Supply.inert_skolem universals s
    rw [Supply.skolem_eq] at hinert
    rw [skolemizeNames, State.bind_apply, Supply.skolem_eq] at h
    obtain ⟨symbols, hdrawn, hlen, hsymbols, hsk⟩ := ih hvars
      (hbody.substitute hvar fun _ ha => ha.substitute hvar hvalue) h
    refine ⟨Supply.skolemSymbol universals s :: symbols, hdrawn.cons_skolem universals, ?_, ?_,
      .any_cons hvar hvars hskolem hbody hsk⟩
    · rw [List.length_cons, hlen, existentials, existentials, boundBy_quantified,
        boundBy_quantified, boundBy_substitute _ _ hvar hinert]
      rfl
    · intro f hf
      rcases List.mem_cons.mp hf with rfl | hf
      · exact hskolem
      · exact hsymbols f hf

/-- a run over the parts of a conjunction or a disjunction -/
theorem skolemizedBy_apply {o : Operator} (ho : o = .conj ∨ o = .disj) {universals : List String}
    {args : List Term}
    (h : ∀ x ∈ args, ∀ s, SkolemizedBy universals x s (x.skolemize universals s)) (s : Supply) :
    SkolemizedBy universals (apply o args) s ((apply o args).skolemize universals s) := by
  have hq : Name.isQuantifier o.name = false := by rcases ho with rfl | rfl <;> decide
  have hexistentials : ∀ xs, (apply o xs).existentials = xs.flatMap existentials := fun xs =>
    boundBy_app _ hq xs
  rw [apply, skolemize_app universals hq]
  show SkolemizedBy universals (apply o args) s (apply o _, _)
  induction args generalizing s with
  | nil =>
    refine ⟨[], .nil _, ?_, fun f hf => absurd hf List.not_mem_nil, .nil ho⟩
    rw [hexistentials]
    rfl
  | cons x xs ih =>
    obtain ⟨symbols, hdrawn, hlen, hsymbols, hsk⟩ := h x (by simp) s
    obtain ⟨symbols', hdrawn', hlen', hsymbols', hsk'⟩ :=
      ih (fun y hy => h y (by simp [hy])) (x.skolemize universals s).2
    rw [State.mapM_cons_apply]
    refine ⟨symbols ++ symbols', hdrawn.trans hdrawn', ?_, fun f hf => ?_, .cons ho hsk hsk'⟩
    · rw [hexistentials] at hlen' ⊢
      rw [List.length_append, hlen, hlen', List.flatMap_cons, List.length_append]
    · rcases List.mem_append.mp hf with hf | hf
      · exact hsymbols f hf
      · exact hsymbols' f hf

theorem skolemizedBy_literal {universals : List String} {t : Term} (ht : t.IsAtomicFormula)
    (s : Supply) : SkolemizedBy universals t.neg s (t.neg.skolemize universals s) := by
  rw [ht.nonlogical.skolemize_neg universals]
  refine ⟨[], .nil _, ?_, fun f hf => absurd hf List.not_mem_nil, .literal ht⟩
  rw [existentials, neg, apply, boundBy_app _ (by decide), List.flatMap_singleton,
    ht.nonlogical.boundBy]

/-- Skolem terms keep a body a positive combination of literals if they keep the literals -/
theorem isPositive_skolemizeNames {L : Term → Prop} {allowed : Quantifier → Prop}
    {universals names : List String}
    (hskolem : ∀ {s : Term} {name symbol : String}, L s → Name.isVariable name = true →
      Name.isSkolem symbol = true → L (s.substitute name (.ofSkolem symbol universals)))
    {body : Term} (hnames : ∀ n ∈ names, Name.isVariable n = true) (h : body.IsPositive L allowed)
    (s : Supply) : (skolemizeNames universals names body s).1.IsPositive L allowed := by
  induction names generalizing body s with
  | nil => exact h
  | cons name names ih =>
    have hvar := hnames name (by simp)
    rw [skolemizeNames, State.bind_apply, Supply.skolem_eq]
    exact ih (fun n hn => hnames n (by simp [hn]))
      (h.substitute hvar fun _ ha => hskolem ha hvar (Supply.isSkolem_skolemSymbol universals s)) _

theorem IsLiteral.skolemize (universals : List String) {t : Term} (h : t.IsLiteral Nonlogical)
    (s : Supply) : t.skolemize universals s = (t, s) := by
  cases h with
  | atomic h => exact h.skolemize universals s
  | negated h => exact h.skolemize_neg universals s

/-- a positive combination of literals has universal quantifiers only when it is Skolemised -/
theorem IsPositive.skolemize {L : Term → Prop} (hL : ∀ s, L s → s.IsLiteral Nonlogical)
    (hskolem : ∀ {s : Term} {name symbol : String} {universals : List String}, L s →
      Name.isVariable name = true → Name.isSkolem symbol = true →
      (∀ a ∈ universals, Name.isVariable a = true) → L (s.substitute name (.ofSkolem symbol universals)))
    {universals : List String} {t : Term} (hu : ∀ a ∈ universals, Name.isVariable a = true)
    (ht : t.IsPositive L fun _ => True) (s : Supply) :
    (t.skolemize universals s).1.IsPositive L (· = .all) := by
  induction universals, t using skolemize.induct generalizing s with
  | case1 universals a =>
    cases ht with
    | literal h =>
      rw [(hL _ h).skolemize]
      exact .literal h
  | case2 universals items b hb hall ih =>
    obtain ⟨he, hnames, hbody⟩ := ht.of_binder? hL hb
    have hscope : ∀ a ∈ universals ++ b.names, Name.isVariable a = true := fun a ha =>
      (List.mem_append.mp ha).elim (hu a) (hnames a)
    rw [he, hall, skolemize_quantified_all]
    exact .quantified rfl hnames (ih hscope hbody s)
  | case3 universals items b hb hany ih =>
    obtain ⟨he, hnames, hbody⟩ := ht.of_binder? hL hb
    rw [he, hany, skolemize_quantified_any]
    exact ih s hu
      (isPositive_skolemizeNames (fun ha hvar hsk => hskolem ha hvar hsk hu) hnames hbody s) _
  | case4 universals items hb ih =>
    generalize hitems : list items = t at ht hb
    have hargs : ∀ {o : Operator} {args : List Term}, t = apply o args →
        (∀ x ∈ args, x.IsPositive L fun _ => True) → ∀ s,
          ∀ y ∈ (args.mapM (Term.skolemize universals) s).1, y.IsPositive L (· = .all) := by
      rintro o args rfl h s
      refine State.forall_mem_mapM (fun x hx s => ih x ?_ hu (h x hx) s) s
      rw [Term.list.inj hitems]
      exact List.mem_cons_of_mem _ hx
    cases ht with
    | literal h =>
      rw [(hL _ h).skolemize]
      exact .literal h
    | conj h =>
      rw [Term.conj, apply, skolemize_app universals (by decide)]
      exact .conj (hargs rfl h s)
    | disj h =>
      rw [Term.disj, apply, skolemize_app universals (by decide)]
      exact .disj (hargs rfl h s)
    | quantified =>
      rw [binder?_quantified] at hb
      cases hb

section

variable {P : Term → Prop}

/-- Skolem terms keep a body in negation normal form if they keep atomic formulas atomic -/
theorem isFormula_skolemizeNames {universals names : List String}
    (hP : ∀ {s : Term} {name symbol : String}, P s → Name.isVariable name = true →
      Name.isSkolem symbol = true → P (s.substitute name (.ofSkolem symbol universals)))
    {body : Term} (hnames : ∀ n ∈ names, Name.isVariable n = true) (h : body.IsFormula P .normal)
    (s : Supply) : (skolemizeNames universals names body s).1.IsFormula P .normal :=
  (isFormula_iff_isPositive id id).mpr (isPositive_skolemizeNames
    (fun h hvar hsk => h.substitute hvar fun _ h => hP h hvar hsk) hnames
    ((isFormula_iff_isPositive id id).mp h) s)

/-- a formula in negation normal form has universal quantifiers only when it is Skolemised -/
theorem isFormula_skolemize (hplain : ∀ s, P s → s.Nonlogical)
    (hP : ∀ {s : Term} {name symbol : String} {universals : List String}, P s →
      Name.isVariable name = true → Name.isSkolem symbol = true →
      (∀ a ∈ universals, Name.isVariable a = true) → P (s.substitute name (.ofSkolem symbol universals)))
    {universals : List String} {t : Term} (hu : ∀ a ∈ universals, Name.isVariable a = true)
    (ht : t.IsFormula P .normal) (s : Supply) :
    (t.skolemize universals s).1.IsFormula P .universal :=
  (isFormula_iff_isPositive id id).mpr (((isFormula_iff_isPositive id id).mp ht).skolemize
    (fun _ h => h.of_atomic hplain)
    (fun h hvar hsk hu => h.substitute hvar fun _ h => hP h hvar hsk hu) hu s)

end

/-! ## the names that a run draws -/

theorem supply_skolemizeNames (universals names : List String) (body : Term) (s : Supply) :
    (skolemizeNames universals names body s).2 = s.after names.length := by
  induction names generalizing body s with
  | nil => exact s.after_zero.symm
  | cons name names ih =>
    rw [skolemizeNames, State.bind_apply, Supply.skolem_eq, ih, Supply.next_after,
      List.length_cons]

theorem boundBy_skolemizeNames (kind : Quantifier → Bool) (universals : List String)
    {names : List String} (hnames : ∀ n ∈ names, Name.isVariable n = true) (body : Term) (s : Supply) :
    (skolemizeNames universals names body s).1.boundBy kind = body.boundBy kind := by
  induction names generalizing body s with
  | nil => rfl
  | cons name names ih =>
    rw [skolemizeNames, State.bind_apply, ih (fun n hn => hnames n (by simp [hn])),
      boundBy_substitute kind body (hnames name (by simp)) (Supply.inert_skolem universals s)]

/-- one name is drawn for each existential name, whatever the term is -/
theorem supply_skolemize (universals : List String) {t : Term}
    (hbound : ∀ n ∈ t.bound, Name.isVariable n = true) (s : Supply) :
    (t.skolemize universals s).2 = s.after t.existentials.length := by
  induction universals, t using skolemize.induct generalizing s with
  | case1 universals a =>
    rw [skolemize, existentials, boundBy_atom]
    exact s.after_zero.symm
  | case2 universals items b hb hall ih =>
    rw [binder?_eq_some_iff.mp hb, bound, boundBy_binder] at hbound
    rw [binder?_eq_some_iff.mp hb, skolemize_binder_all universals hall, existentials,
      boundBy_binder, hall]
    exact ih (fun n hn => hbound n (List.mem_append_right _ hn)) s
  | case3 universals items b hb hany ih =>
    rw [binder?_eq_some_iff.mp hb, bound, boundBy_binder] at hbound
    have hnames : ∀ n ∈ b.names, Name.isVariable n = true := fun n hn =>
      hbound n (List.mem_append_left _ hn)
    rw [binder?_eq_some_iff.mp hb, skolemize_binder_any universals hany, ih s ?_ _,
      supply_skolemizeNames, Supply.after_after, existentials, existentials,
      boundBy_skolemizeNames _ _ hnames, boundBy_binder, hany, List.length_append]
    · rfl
    · rw [bound, boundBy_skolemizeNames _ _ hnames]
      exact fun n hn => hbound n (List.mem_append_right _ hn)
  | case4 universals items hb ih =>
    rw [bound, boundBy_list _ hb] at hbound
    rw [skolemize_list universals hb, existentials, boundBy_list _ hb]
    show (items.mapM (skolemize universals) s).2 = _
    clear hb
    induction items generalizing s with
    | nil => exact s.after_zero.symm
    | cons x xs ihxs =>
      have hx := ih x (by simp)
        (fun n hn => hbound n (List.mem_flatMap.mpr ⟨x, by simp, hn⟩)) s
      rw [State.mapM_cons_apply, hx, ihxs _ _, Supply.after_after, List.flatMap_cons,
        List.length_append]
      · rfl
      · exact fun y hy => ih y (by simp [hy])
      · exact fun n hn => hbound n (by
          obtain ⟨y, hy, hn⟩ := List.mem_flatMap.mp hn
          exact List.mem_flatMap.mpr ⟨y, by simp [hy], hn⟩)

/-! ## Skolemised formulas -/

/-- Skolemising a formula in negation normal form -/
theorem skolemize_spec (universals : List String) (t : Term)
    (hu : ∀ a ∈ universals, Name.isVariable a = true) (ht : t.IsFormula IsAtomicFormula .normal)
    (s : Supply) : SkolemizedBy universals t s (t.skolemize universals s) := by
  have hatomic : ∀ {universals : List String} {t : Term} {s : Supply}, t.IsAtomicFormula →
      SkolemizedBy universals t s (t.skolemize universals s) := by
    intro universals t s ht
    rw [ht.nonlogical.skolemize universals]
    refine ⟨[], .nil _, ?_, fun f hf => absurd hf List.not_mem_nil, .atomic ht⟩
    rw [existentials, ht.nonlogical.boundBy]
  have hskolemized : ∀ {universals names : List String} {body : Term},
      (∀ a ∈ universals, Name.isVariable a = true) → (∀ n ∈ names, Name.isVariable n = true) →
      body.IsFormula IsAtomicFormula .normal → ∀ s,
      (skolemizeNames universals names body s).1.IsFormula IsAtomicFormula .normal :=
    fun hu => isFormula_skolemizeNames fun ha hvar hsk => ha.substitute hvar (isIndividual_ofSkolem hsk hu)
  induction universals, t using skolemize.induct generalizing s with
  | case1 universals a =>
    cases ht with
    | atomic h => exact hatomic h
  | case2 universals items b hb hall ih =>
    obtain ⟨he, hnames, hbody⟩ := ht.of_binder? (fun _ => IsAtomicFormula.nonlogical) hb
    have hscope : ∀ a ∈ universals ++ b.names, Name.isVariable a = true := by
      intro a ha
      rcases List.mem_append.mp ha with ha | ha
      · exact hu a ha
      · exact hnames a ha
    obtain ⟨symbols, hdrawn, hlen, hsymbols, hsk⟩ := ih hscope hbody s
    rw [he, hall, skolemize_quantified_all]
    refine ⟨symbols, hdrawn, ?_, hsymbols, .all hnames hsk⟩
    rw [hlen, existentials, existentials, boundBy_quantified]
    rfl
  | case3 universals items b hb hany ih =>
    obtain ⟨he, hnames, hbody⟩ := ht.of_binder? (fun _ => IsAtomicFormula.nonlogical) hb
    rw [he, hany, skolemize_quantified_any]
    exact .any hu hnames hbody (ih s hu (hskolemized hu hnames hbody s) _)
  | case4 universals items hb ih =>
    generalize hitems : list items = t at ht hb
    have hargs : ∀ {head : String} {args : List Term}, t = app head args →
        ∀ x ∈ args, x ∈ items := by
      rintro head args rfl x hx
      rw [Term.list.inj hitems]
      exact List.mem_cons_of_mem _ hx
    cases ht with
    | atomic h => exact hatomic h
    | literal h => exact skolemizedBy_literal h s
    | conj h =>
      exact skolemizedBy_apply (o := .conj) (.inl rfl)
        (fun x hx s => ih x (hargs rfl x hx) hu (h x hx) s) s
    | disj h =>
      exact skolemizedBy_apply (o := .disj) (.inr rfl)
        (fun x hx s => ih x (hargs rfl x hx) hu (h x hx) s) s
    | neg hnested => exact hnested.elim
    | implies harrows => exact harrows.elim
    | iff harrows => exact harrows.elim
    | quantified =>
      rw [binder?_quantified] at hb
      cases hb

end Term

end OntologyPrep
