import OntologyPrep.Proofs.Normal.Clausal
import OntologyPrep.Proofs.Row.Showing

/-!
# The steps towards clauses show the same

Each step on the way to a clausal form keeps what a formula shows of a relation (`Term.showing`):

* `Term.showing_arrowsOut`, `Term.showing_negationsIn`   for both signs, and for the positive one;
* `Term.RenamedAlong.showing_eq`                         if new and old names are alike the row's;
* `Term.showing_skolemize`                               Skolem terms are not among the row's variables;
* `Term.showing_universalsOut`                           universal quantifiers change nothing;
* `Term.showing_disjunctionsIn`                          by distributivity;
* `Term.IsClausal.showing_eq_shown`                      where nothing is left to do, what is shown is
                                                         what is there.
-/

namespace OntologyPrep.Term

variable {r : String} {own live : String → Bool} {f : Fragment}

theorem map_showing {positive positive' : Bool} {live' : String → Bool} {g : Term → Term}
    {args : List Term} (h : ∀ x ∈ args, (g x).showing r own positive live =
      x.showing r own positive' live') :
    (args.map g).map (showing r own positive live) = args.map (showing r own positive' live') := by
  rw [List.map_map]
  exact List.map_congr_left h

/-! ## arrows and negations -/

theorem showing_arrowsOut {t : Term} (h : t.IsFormula Nonlogical f) (positive : Bool)
    (live : String → Bool) : t.arrowsOut.showing r own positive live = t.showing r own positive live := by
  induction h generalizing positive live with
  | atomic h => rw [h.arrowsOut]
  | literal h => rw [arrowsOut_neg, h.arrowsOut]
  | conj _ ih => rw [arrowsOut_conj, showing_conj, showing_conj, map_showing fun x hx => ih x hx _ _]
  | disj _ ih => rw [arrowsOut_disj, showing_disj, showing_disj, map_showing fun x hx => ih x hx _ _]
  | neg _ _ ih => rw [arrowsOut_neg, showing_neg, showing_neg, ih]
  | implies _ _ _ ihs iht =>
    rw [arrowsOut_implies, showing_disj, showing_implies]
    simp only [List.map_cons, List.map_nil, showing_neg, ihs, iht]
  | iff _ _ _ ihs iht =>
    rw [arrowsOut_iff, showing_conj, showing_iff]
    simp only [List.map_cons, List.map_nil, showing_disj, showing_neg, ihs, iht]
  | quantified _ hnames _ ih =>
    rw [arrowsOut_quantified _ hnames, showing_quantified, showing_quantified, ih]

/-- a negated atomic formula settles to a literal that shows the same -/
theorem Nonlogical.showing_settle_false {t : Term} (h : t.Nonlogical) :
    (t.settle false).showing r own true live = t.showing r own false live := by
  match t with
  | .list xs =>
    rw [h.settle_false, showing_neg]
    rfl
  | .atom a =>
    rw [showing_atom, Term.settle, if_neg (by decide)]
    split
    · exact showing_atom _
    · split
      · exact showing_atom _
      · rw [showing_neg, showing_atom]

theorem showing_settle {t : Term} (h : t.IsFormula Nonlogical .arrowFree) (positive : Bool)
    (live : String → Bool) :
    (t.settle positive).showing r own true live = t.showing r own positive live := by
  induction h generalizing positive live with
  | atomic h =>
    cases positive with
    | true => rw [h.settle]
    | false => exact h.showing_settle_false
  | @literal t h =>
    rw [settle_neg, showing_neg]
    cases positive with
    | true => exact h.showing_settle_false
    | false => rw [Bool.not_false, h.settle]
  | @conj args _ ih =>
    rw [showing_conj, ← map_showing fun x hx => ih x hx positive live]
    cases positive with
    | true => rw [(settle_conj args).1, showing_conj]
    | false => rw [(settle_conj args).2, showing_disj, Bool.not_true]
  | @disj args _ ih =>
    rw [showing_disj, ← map_showing fun x hx => ih x hx positive live]
    cases positive with
    | true => rw [(settle_disj args).1, showing_disj]
    | false => rw [(settle_disj args).2, showing_conj, Bool.not_false]
  | neg _ _ ih => rw [settle_neg, showing_neg, ih]
  | implies harrows => exact harrows.elim
  | iff harrows => exact harrows.elim
  | @quantified q names body _ hnames _ ih =>
    obtain ⟨htrue, hfalse⟩ := settle_quantified q hnames body
    rw [showing_quantified]
    cases positive with
    | true => rw [htrue, showing_quantified, ih]
    | false => rw [hfalse, showing_quantified, ih, Quantifier.isUniversal_dual, Bool.not_true]

theorem showing_negationsIn {t : Term} (h : t.IsFormula Nonlogical .arrowFree) (live : String → Bool) :
    t.negationsIn.showing r own true live = t.showing r own true live := by
  induction t using negationsIn.induct with
  | case1 t hfixed => rw [negationsIn_of_eq hfixed]
  | case2 t hchanged ih =>
    have hform := isFormula_settle (fun _ h => h) (nonlogical_atom _) (nonlogical_atom _) h true
    rw [negationsIn, if_neg hchanged, ih (hform.mono Fragment.normal_within_arrowFree)]
    exact showing_settle h true live

/-! ## renaming -/

section

variable {ρ : String → String} {own' live' : String → Bool}

theorem any_congr_left {α : Type} {p q : α → Bool} {xs : List α} (h : ∀ x ∈ xs, p x = q x) :
    xs.any p = xs.any q := by
  have hmap := congrArg (List.any · id) (List.map_congr_left h)
  simpa only [List.any_map, Function.id_comp] using hmap

theorem any_eq_any_of_zip {α β : Type} {p : α → Bool} {q : β → Bool} {xs : List α} {ys : List β}
    (hlen : ys.length = xs.length) (h : ∀ z ∈ xs.zip ys, q z.2 = p z.1) : ys.any q = xs.any p := by
  have hmap := congrArg (List.any · id) (map_eq_map_of_zip hlen h)
  simpa only [List.any_map, Function.id_comp] using hmap

theorem Renames.isOneOf_eq {t t' : Term} (h : Renames ρ t t')
    (hlive : ∀ a ∈ t.freeVariables, live' (ρ a) = live a) : t'.isOneOf live' = t.isOneOf live := by
  cases h with
  | const ha => rw [isOneOf_constant ha, isOneOf_constant ha]
  | var ha hv =>
    rw [isOneOf_atom ha, isOneOf_atom hv, hlive _ (mem_freeVariables_atom.mpr ⟨ha, rfl⟩)]
  | binder _ _ _ => rfl
  | list _ _ _ => rfl

/-- a constant heads a renamed list if it heads the list -/
theorem Renames.head?_eq (hr : Name.isVariable r = false) {xs ys : List Term}
    (hlen : ys.length = xs.length) (h : ∀ p ∈ xs.zip ys, Renames ρ p.1 p.2) :
    ((Term.list ys).head? == some r) = ((Term.list xs).head? == some r) := by
  match xs, ys, hlen with
  | [], [], _ => rfl
  | x :: _, y :: _, _ =>
    have hhead : Renames ρ x y := h (x, y) (by simp)
    rw [head?_list_cons, head?_list_cons]
    cases hhead with
    | const _ => rfl
    | var ha hv =>
      have hne : ∀ {a : String}, Name.isVariable a = true → (some a == some r) = false := fun ha => by
        simpa using Name.ne_of_isVariable ha hr
      rw [name?_atom, name?_atom, hne ha, hne hv]
    | binder _ _ _ => rfl
    | list _ _ _ => rfl

theorem Renames.applies_eq (hr : Name.isVariable r = false) {t t' : Term} (ht : t.Nonlogical)
    (h : Renames ρ t t') (hlive : ∀ a ∈ t.freeVariables, live' (ρ a) = live a) :
    t'.applies r live' = t.applies r live := by
  induction h with
  | const _ => rw [applies_atom, applies_atom]
  | var _ _ => rw [applies_atom, applies_atom]
  | @binder _ b _ _ _ _ _ =>
    exact absurd ht (not_nonlogical_apply (.quant b.quantifier) [b.entries, b.body])
  | @list ρ xs ys hb hlen hzip ih =>
    have hfree : ∀ p ∈ xs.zip ys, ∀ a ∈ p.1.freeVariables, live' (ρ a) = live a := fun p hp a ha =>
      hlive a ((mem_freeVariables_list hb).mpr ⟨p.1, (List.of_mem_zip hp).1, ha⟩)
    have hargs : (ys.drop 1).any (isOneOf live') = (xs.drop 1).any (isOneOf live) := by
      refine any_eq_any_of_zip (by rw [List.length_drop, List.length_drop, hlen]) fun p hp => ?_
      rw [List.zip, ← List.drop_zipWith] at hp
      have hp := List.mem_of_mem_drop hp
      exact (hzip p hp).isOneOf_eq (hfree p hp)
    have hparts : ys.any (applies r live') = xs.any (applies r live) :=
      any_eq_any_of_zip hlen fun p hp => ih p hp (ht.of_mem (List.of_mem_zip hp).1) (hfree p hp)
    rw [applies_list, applies_list, Renames.head?_eq hr hlen hzip, hargs, hparts]

/-- a renamed formula shows what the formula does, if new and old names are alike the row's -/
theorem RenamedAlong.showing_eq {pairs : List (String × String)} (hr : Name.isVariable r = false)
    (hown : ∀ p ∈ pairs, own' p.1 = own p.2) {t t' : Term} (ht : t.IsFormula Nonlogical .normal)
    (h : RenamedAlong pairs ρ t t') {positive : Bool}
    (hlive : ∀ a ∈ t.freeVariables, live' (ρ a) = live a) :
    t'.showing r own' positive live' = t.showing r own positive live := by
  have hatomic : ∀ {ρ : String → String} {live live' : String → Bool} {t t' : Term} {positive : Bool},
      t.Nonlogical → Renames ρ t t' → (∀ a ∈ t.freeVariables, live' (ρ a) = live a) →
      t'.showing r own' positive live' = t.showing r own positive live := by
    intro ρ live live' t t' positive ht h hlive
    rw [ht.showing, (h.nonlogical ht).showing, h.applies_eq hr ht hlive]
  induction ht generalizing ρ t' positive live live' with
  | atomic ht => exact hatomic ht h.renames hlive
  | literal ht =>
    obtain ⟨args', rfl, hlen, hzip⟩ := h.renames.exists_operands (by decide)
    obtain ⟨u', rfl, hu⟩ := exists_single hlen hzip
    rw [← neg, showing_neg, showing_neg]
    exact hatomic ht hu fun a ha => hlive a (mem_freeVariables_neg.mpr ha)
  | @conj args _ ih =>
    obtain ⟨args', rfl, hlen, hzip⟩ := h.exists_operands (by decide)
    rw [← conj, showing_conj, showing_conj, map_eq_map_of_zip hlen fun p hp => ?_]
    have hmem := (List.of_mem_zip hp).1
    exact ih p.1 hmem (hzip p hp) fun a ha => hlive a (mem_freeVariables_conj.mpr ⟨p.1, hmem, ha⟩)
  | @disj args _ ih =>
    obtain ⟨args', rfl, hlen, hzip⟩ := h.exists_operands (by decide)
    rw [← disj, showing_disj, showing_disj, map_eq_map_of_zip hlen fun p hp => ?_]
    have hmem := (List.of_mem_zip hp).1
    exact ih p.1 hmem (hzip p hp) fun a ha => hlive a (mem_freeVariables_disj.mpr ⟨p.1, hmem, ha⟩)
  | neg hnested => exact hnested.elim
  | implies harrows => exact harrows.elim
  | iff harrows => exact harrows.elim
  | @quantified q names body _ _ _ ih =>
    obtain ⟨news, body', rfl, hlen, hpairs, hout, hbody⟩ := h.exists_body
    rw [showing_quantified, showing_quantified]
    refine ih hbody fun a ha => ?_
    unfold inScope
    by_cases hn : a ∈ names
    · have hmem := rebind_mem_zip (ρ := ρ) hlen hn
      rw [if_pos hn, if_pos (List.of_mem_zip hmem).1, hown _ (hpairs _ hmem)]
    · rw [if_neg hn, rebind_of_not_mem hn, if_neg (hout a ha hn),
        hlive a (mem_freeVariables_quantified.mpr ⟨ha, hn⟩)]

end

/-! ## Skolem terms -/

section

variable {name : String} {value : Term}

/-- a term in the place of a name takes the name off the variables that count, if the term is not one of
them, is not headed by the symbol and does not apply it -/
theorem Nonlogical.applies_substitute (hne : name ≠ r) (hone : value.isOneOf live = false)
    (hhead : value.name? ≠ some r) (happlies : value.applies r live = false) {t : Term}
    (ht : t.Nonlogical) :
    (t.substitute name value).applies r live = t.applies r (inScope false [name] own live) := by
  have hscope : ∀ a, inScope false [name] own live a = if a = name then false else live a := by
    intro a
    simp only [inScope, List.mem_singleton, Bool.false_and]
  match t with
  | .atom a =>
    rw [substitute_atom, applies_atom]
    split
    · exact happlies
    · exact applies_atom a
  | .list xs =>
    have hbound : name ∉ (list xs).boundNames := by
      rw [boundNames_of_binder?_eq_none ht.binder?_eq_none]
      exact List.not_mem_nil
    have hfirst : ((list (xs.map fun x => x.substitute name value)).head? == some r) =
        ((list xs).head? == some r) := by
      cases xs with
      | nil => rfl
      | cons x xs =>
        rw [List.map_cons, head?_list_cons, head?_list_cons, name?_substitute]
        split
        · next hx =>
          rw [beq_eq_false_iff_ne.mpr hhead, hx, name?_atom]
          simpa using hne
        · rfl
    have hargs : (isOneOf live ∘ fun x => x.substitute name value) =
        isOneOf (inScope false [name] own live) := by
      funext x
      cases x with
      | list ys =>
        rw [Function.comp_apply, Term.substitute]
        split <;> rfl
      | atom a =>
        rw [Function.comp_apply, substitute_atom, isOneOf.eq_def _ (atom a), name?_atom, Option.any_some,
          hscope]
        split
        · rw [hone, Bool.and_false]
        · rfl
    have hparts : xs.any (applies r live ∘ fun x => x.substitute name value) =
        xs.any (applies r (inScope false [name] own live)) :=
      any_congr_left fun x hx => (ht.of_mem hx).applies_substitute hne hone hhead happlies
    rw [substitute_list value hbound, applies_list, applies_list, hfirst, List.any_map, ← List.map_drop,
      List.any_map, hargs, hparts]

/-- what a bound name is outside does not count -/
theorem inScope_hidden_of_mem {universal : Bool} {names : List String} (h : name ∈ names) :
    inScope universal names own (inScope false [name] own live) = inScope universal names own live := by
  funext a
  unfold inScope
  split
  · rfl
  · next ha =>
    rw [if_neg]
    rintro he
    rw [List.mem_singleton.mp he] at ha
    exact ha h

theorem inScope_hidden_comm {universal : Bool} {names : List String} (h : name ∉ names) :
    inScope false [name] own (inScope universal names own live) =
      inScope universal names own (inScope false [name] own live) := by
  funext a
  unfold inScope
  by_cases ha : a ∈ names
  · have hne : a ∉ [name] := fun he => h (by rwa [List.mem_singleton.mp he] at ha)
    rw [if_pos ha, if_pos ha, if_neg hne]
  · rw [if_neg ha, if_neg ha]

theorem inScope_hidden_cons (names : List String) :
    inScope false [name] own (inScope false names own live) = inScope false (name :: names) own live := by
  funext a
  unfold inScope
  simp only [List.mem_cons, List.not_mem_nil, or_false, Bool.false_and]
  by_cases ha : a = name
  · rw [if_pos ha, if_pos (.inl ha)]
  · rw [if_neg ha, if_congr (or_iff_right ha) rfl rfl]

end

section

variable {universals : List String} (hr : Name.IsConstant r) (hskolem : Name.isSkolem r = false)

include hr hskolem

theorem Nonlogical.applies_ofSkolem {name symbol : String} (hvar : Name.isVariable name = true)
    (hsymbol : Name.isSkolem symbol = true) {t : Term} (ht : t.Nonlogical) :
    (t.substitute name (ofSkolem symbol universals)).applies r live =
      t.applies r (inScope false [name] own live) := by
  have hne : symbol ≠ r := by
    rintro rfl
    rw [hsymbol] at hskolem
    cases hskolem
  have hname : name ≠ r := Name.ne_of_isVariable hvar hr.1
  cases universals with
  | nil =>
    exact ht.applies_substitute hname (isOneOf_constant (Name.isConstant_of_isSkolem hsymbol).1)
      (fun he => hne (Option.some.inj he)) (applies_atom symbol)
  | cons u us =>
    refine ht.applies_substitute hname rfl (fun he => by cases he) ?_
    rw [ofSkolem, applies_app hne, List.any_map]
    exact List.any_eq_false.mpr fun a _ => by simp

/-- a Skolem term in the place of a name takes the name off the variables that count -/
theorem showing_ofSkolem {name symbol : String} (hvar : Name.isVariable name = true)
    (hsymbol : Name.isSkolem symbol = true) (hu : ∀ a ∈ universals, Name.isVariable a = true) {t : Term}
    (ht : t.IsFormula Nonlogical .normal) {positive : Bool} (live : String → Bool) :
    (t.substitute name (ofSkolem symbol universals)).showing r own positive live =
      t.showing r own positive (inScope false [name] own live) := by
  have hatomic : ∀ {t : Term} {positive : Bool}, t.Nonlogical → ∀ live : String → Bool,
      (t.substitute name (ofSkolem symbol universals)).showing r own positive live =
        t.showing r own positive (inScope false [name] own live) := by
    intro t positive ht live
    rw [ht.showing, (ht.substitute name (isIndividual_ofSkolem hsymbol hu).plain).showing,
      ht.applies_ofSkolem hr hskolem hvar hsymbol]
  induction ht generalizing positive live with
  | atomic ht => exact hatomic ht live
  | literal ht => rw [substitute_neg hvar, showing_neg, showing_neg, hatomic ht]
  | conj _ ih =>
    rw [conj, substitute_apply hvar (by decide), ← conj, showing_conj, ← conj, showing_conj,
      map_showing fun x hx => ih x hx live]
  | disj _ ih =>
    rw [disj, substitute_apply hvar (by decide), ← disj, showing_disj, ← disj, showing_disj,
      map_showing fun x hx => ih x hx live]
  | neg hnested => exact hnested.elim
  | implies harrows => exact harrows.elim
  | iff harrows => exact harrows.elim
  | @quantified q names body _ _ _ ih =>
    by_cases hn : name ∈ names
    · rw [substitute_quantified_of_mem q body hn, showing_quantified, showing_quantified,
        inScope_hidden_of_mem hn]
    · rw [substitute_quantified_of_not_mem hvar q body hn, showing_quantified, showing_quantified, ih,
        inScope_hidden_comm hn]

theorem showing_skolemizeNames (hu : ∀ a ∈ universals, Name.isVariable a = true) {names : List String}
    (hnames : ∀ n ∈ names, Name.isVariable n = true) {body : Term}
    (hbody : body.IsFormula Nonlogical .normal) (s : Supply) (live : String → Bool) :
    (skolemizeNames universals names body s).1.showing r own true live =
      body.showing r own true (inScope false names own live) := by
  induction names generalizing body s with
  | nil =>
    rw [show inScope false [] own live = live from rfl]
    rfl
  | cons name names ih =>
    have hvar := hnames name List.mem_cons_self
    have hsymbol := Supply.isSkolem_skolemSymbol universals s
    rw [skolemizeNames, State.bind_apply, Supply.skolem_eq, ih (fun n hn => hnames n (by simp [hn])),
      showing_ofSkolem hr hskolem hvar hsymbol hu hbody, inScope_hidden_cons]
    exact hbody.substitute hvar fun _ ht => ht.substitute name (isIndividual_ofSkolem hsymbol hu).plain

/-- Skolem terms take the existential names off the variables that count -/
theorem showing_skolemize {t : Term} (hu : ∀ a ∈ universals, Name.isVariable a = true)
    (ht : t.IsFormula Nonlogical .normal) (s : Supply) (live : String → Bool) :
    (t.skolemize universals s).1.showing r own true live = t.showing r own true live := by
  induction universals, t using skolemize.induct generalizing s live with
  | case1 universals a => rw [skolemize, State.pure_apply]
  | case2 universals items b hb hall ih =>
    obtain ⟨he, hnames, hbody⟩ := ht.of_binder? (fun _ h => h) hb
    rw [he, hall, skolemize_quantified_all, showing_quantified, showing_quantified,
      ih (List.forall_mem_append.mpr ⟨hu, hnames⟩) hbody]
  | case3 universals items b hb hany ih =>
    obtain ⟨he, hnames, hbody⟩ := ht.of_binder? (fun _ h => h) hb
    have hform : (skolemizeNames universals b.names b.body s).1.IsFormula Nonlogical .normal :=
      isFormula_skolemizeNames
        (fun {_ name _} ht _ hsymbol => ht.substitute name (isIndividual_ofSkolem hsymbol hu).plain)
        hnames hbody s
    rw [he, hany, skolemize_quantified_any, ih s hu hform, showing_quantified,
      showing_skolemizeNames hr hskolem hu hnames hbody]
    rfl
  | case4 universals items hb ih =>
    generalize hitems : list items = t at ht hb
    have hargs : ∀ {o : Operator} {args : List Term}, t = apply o args →
        (∀ x ∈ args, x.IsFormula Nonlogical .normal) → ∀ s,
          (args.mapM (skolemize universals) s).1.map (showing r own true live) =
            args.map (showing r own true live) := by
      rintro o args rfl h s
      obtain ⟨hlen, hzip, -⟩ := State.mapM_relates (I := fun _ => True)
        (R := fun x (y : Term) => y.showing r own true live = x.showing r own true live)
        (fun x hx s _ => ⟨ih x (Term.list.inj hitems ▸ List.mem_cons_of_mem _ hx) hu (h x hx) s live,
          trivial⟩) (s := s) trivial
      exact map_eq_map_of_zip hlen hzip
    cases ht with
    | atomic h => rw [h.skolemize]
    | literal h => rw [h.skolemize_neg]
    | @conj args h =>
      rw [conj, apply, skolemize_app universals (by decide), ← apply, ← apply, ← conj, ← conj,
        showing_conj, showing_conj, hargs rfl h]
    | @disj args h =>
      rw [disj, apply, skolemize_app universals (by decide), ← apply, ← apply, ← disj, ← disj,
        showing_disj, showing_disj, hargs rfl h]
    | neg hnested => exact hnested.elim
    | implies harrows => exact harrows.elim
    | iff harrows => exact harrows.elim
    | quantified =>
      rw [binder?_quantified] at hb
      cases hb

end

/-! ## universal quantifiers -/

/-- without its quantifiers a formula shows the same, if the row's variables count already -/
theorem showing_universalsOut {t : Term} (ht : t.IsFormula Nonlogical .universal) :
    t.universalsOut.showing r own true own = t.showing r own true own := by
  induction ht with
  | atomic h => rw [h.universalsOut]
  | literal h => rw [h.universalsOut_neg]
  | conj _ ih =>
    rw [conj, apply, universalsOut_app (by decide), ← apply, ← apply, ← conj, ← conj, showing_conj,
      showing_conj, map_showing ih]
  | disj _ ih =>
    rw [disj, apply, universalsOut_app (by decide), ← apply, ← apply, ← disj, ← disj, showing_disj,
      showing_disj, map_showing ih]
  | neg hnested => exact hnested.elim
  | implies harrows => exact harrows.elim
  | iff harrows => exact harrows.elim
  | @quantified q names body hq _ _ ih =>
    obtain rfl := hq
    have hscope : inScope true names own own = own := by
      funext a
      unfold inScope
      split <;> rfl
    rw [universalsOut_quantified_all, showing_quantified, ih]
    show _ = body.showing r own true (inScope true names own own)
    rw [hscope]

/-! ## disjunctions -/

/-- a conjunction or a disjunction that is read with the positive sign -/
theorem showing_apply {o : Operator} (ho : o = .conj ∨ o = .disj) (args : List Term) :
    (apply o args).showing r own true live =
      .junction (o = .conj) (args.map (showing r own true live)) := by
  rcases ho with rfl | rfl
  · exact showing_conj args
  · exact showing_disj args

theorem showing_parts {o : Operator} (ho : o = .conj ∨ o = .disj) (x : Term) :
    .junction (o = .conj) ((x.parts o.name).map (showing r own true live)) =
      x.showing r own true live := by
  by_cases hx : ∃ args, x = .app o.name args
  · obtain ⟨args, rfl⟩ := hx
    rw [parts_app]
    exact (showing_apply ho args).symm
  · rw [parts_of_ne _ fun args he => hx ⟨args, he⟩]
    exact Showing.junction_singleton _ _

theorem showing_merged {o : Operator} (ho : o = .conj ∨ o = .disj) (args : List Term) :
    (collapse o.name (args.flatMap (parts o.name))).showing r own true live =
      .junction (o = .conj) (args.map (showing r own true live)) := by
  have hcollapse : ∀ ts : List Term, (collapse o.name ts).showing r own true live =
      .junction (o = .conj) (ts.map (showing r own true live)) := by
    intro ts
    unfold collapse
    split
    · exact (Showing.junction_singleton _ _).symm
    · exact showing_apply ho ts
  rw [hcollapse]
  induction args with
  | nil => rfl
  | cons x xs ih =>
    rw [List.flatMap_cons, List.map_append, Showing.junction_append, ih, showing_parts ho,
      ← Showing.junction_cons]
    rfl

/-- merging nested conjunctions and disjunctions keeps what is shown -/
theorem showing_flatten {t : Term} (h : t.IsFormula Nonlogical .matrix) :
    t.flatten.showing r own true live = t.showing r own true live := by
  induction h with
  | atomic h => rw [h.flatten]
  | literal h => rw [h.flatten_neg]
  | conj _ ih =>
    rw [flatten_conj, showing_conj, ← map_showing ih]
    exact showing_merged (o := .conj) (.inl rfl) _
  | disj _ ih =>
    rw [flatten_disj, showing_disj, ← map_showing ih]
    exact showing_merged (o := .disj) (.inr rfl) _
  | neg hnested => exact hnested.elim
  | implies harrows => exact harrows.elim
  | iff harrows => exact harrows.elim
  | quantified hq => exact hq.elim

/-- a disjunction that is distributed over its first conjunction shows what it did -/
theorem showing_distributeFrom {before xs : List Term} {t : Term}
    (h : distributeFrom before xs = some t) :
    t.showing r own true live = .any ((before ++ xs).map (showing r own true live)) := by
  induction xs generalizing before with
  | nil => cases h
  | cons x after ih =>
    rw [distributeFrom] at h
    split at h
    · next cs hcs =>
      cases h
      obtain rfl := eq_conj_of_conjuncts? hcs
      have hsplit : ∀ c : Term, Showing.any ((before ++ c :: after).map (showing r own true live)) =
          .or (.any ((before ++ after).map (showing r own true live))) (c.showing r own true live) := by
        intro c
        rw [List.map_append, List.map_cons, Showing.any_middle, List.map_append]
      rw [showing_conj, hsplit, showing_conj]
      show Showing.all _ = Showing.or _ (Showing.all _)
      rw [Showing.or_all, List.map_map, List.map_map]
      refine congrArg _ (List.map_congr_left fun c _ => ?_)
      rw [Function.comp_apply, Function.comp_apply, showing_disj, ← hsplit]
      rfl
    · rw [ih h, List.append_assoc]
      rfl

theorem showing_distribute {t : Term} (h : t.IsFormula Nonlogical .matrix) :
    t.distribute.showing r own true live = t.showing r own true live := by
  induction h with
  | atomic h => rw [h.distribute]
  | literal h => rw [neg, apply, distribute_app (by decide) (by decide)]
  | conj _ ih => rw [distribute_conj, showing_conj, showing_conj, map_showing ih]
  | @disj args _ ih =>
    rw [distribute_disj, distributeParts, showing_disj, ← map_showing ih]
    cases hd : distributeFrom [] (args.map distribute) with
    | none => exact showing_disj _
    | some u => exact showing_distributeFrom hd
  | neg hnested => exact hnested.elim
  | implies harrows => exact harrows.elim
  | iff harrows => exact harrows.elim
  | quantified hq => exact hq.elim

/-- moving the disjunctions in keeps what is shown -/
theorem showing_disjunctionsIn {t : Term} (h : t.IsFormula Nonlogical .matrix) :
    t.disjunctionsIn.showing r own true live = t.showing r own true live := by
  have hrounds : ∀ u : Term, u.IsFormula Nonlogical .matrix →
      u.clauseRounds.showing r own true live = u.showing r own true live := by
    intro u hu
    induction u using clauseRounds.induct with
    | case1 u hfixed => rw [clauseRounds_of_eq hfixed]
    | case2 u hchanged ih =>
      have hd := isFormula_distribute (fun _ h => h) hu
      rw [clauseRounds, if_neg hchanged, ih (isFormula_flatten (fun _ h => h) hd), clauseRound,
        showing_flatten hd, showing_distribute hu]
  exact (hrounds _ (isFormula_flatten (fun _ h => h) h)).trans (showing_flatten h)

/-! ## clauses -/

section

variable (hr : Name.IsConstant r)

include hr

theorem IsLiteral.showing_eq {t : Term} (h : t.IsLiteral Nonlogical) :
    t.showing r own true live = .ofBool (t.applies r live) := by
  cases h with
  | atomic h => exact h.showing
  | negated h => rw [showing_neg, h.showing, neg, applies_apply hr, List.any_cons, List.any_nil, Bool.or_false]

theorem IsDisjunction.showing_eq {t : Term} (h : t.IsDisjunction Nonlogical) :
    t.showing r own true live = .ofBool (t.applies r live) := by
  cases h with
  | literal h => exact h.showing_eq hr
  | @disj args _ h =>
    rw [showing_disj, List.map_congr_left fun x hx => (h x hx).showing_eq hr, Term.disj, applies_apply hr]
    exact Showing.any_map_ofBool (applies r live) args

/-- a conjunction of disjunctions of literals shows what it has -/
theorem IsClausal.showing_eq_shown {t : Term} (h : t.IsClausal Nonlogical) :
    t.showing r own true live = .shown ↔ t.applies r live = true := by
  cases h with
  | disjunction h => rw [h.showing_eq hr, Showing.ofBool_eq_shown]
  | @conj args _ h =>
    rw [showing_conj, List.map_congr_left fun x hx => (h x hx).showing_eq hr, Term.conj, applies_apply hr,
      List.any_eq_true]
    refine Showing.all_eq_shown.trans (List.mem_map.trans (exists_congr fun x => and_congr_right fun _ => ?_))
    exact Showing.ofBool_eq_shown

/-! ## literals -/

theorem applies_add (c : Clause) (t : Term) : (c.add t).literals.any (applies r live) =
    (c.literals.any (applies r live) || t.applies r live) := by
  have hmem : ∀ ts : List Term, ∀ u : Term, (Distinct.add ts u).any (applies r live) =
      (ts.any (applies r live) || u.applies r live) := by
    intro ts u
    rw [Bool.eq_iff_iff, List.any_eq_true, Bool.or_eq_true, List.any_eq_true]
    simp only [Distinct.mem_add, or_and_right, exists_or, exists_eq_left]
  unfold Clause.add Clause.literals
  split
  · next s =>
    have hneg : (list [.atom "not", s]).applies r live = s.applies r live :=
      (applies_apply hr .neg [s]).trans (by rw [List.any_cons, List.any_nil, Bool.or_false])
    rw [List.any_append, List.any_append, hmem, hneg, Bool.or_right_comm]
  · rw [List.any_append, List.any_append, hmem, verum, applies_atom, applies_atom, Bool.or_false, Bool.or_false]
  · rw [List.any_append, List.any_append, hmem, Bool.or_assoc]

theorem applies_ofLiterals (ts : List Term) :
    (Clause.ofLiterals ts).literals.any (applies r live) = ts.any (applies r live) := by
  have hfold : ∀ c : Clause, (ts.foldl Clause.add c).literals.any (applies r live) =
      (c.literals.any (applies r live) || ts.any (applies r live)) := by
    induction ts with
    | nil => exact fun c => (Bool.or_false _).symm
    | cons t ts ih =>
      intro c
      rw [List.foldl_cons, ih, applies_add hr, List.any_cons, Bool.or_assoc]
  exact (hfold .empty).trans (Bool.false_or _)

theorem applies_operands (o : Operator) (t : Term) :
    (t.operands o).any (applies r live) = t.applies r live := by
  unfold operands
  split
  · next h =>
    have happly : (apply o t.args).applies r live = t.args.any (applies r live) := applies_apply hr o _
    rwa [← eq_apply_of_operator? h, eq_comm] at happly
  · rw [List.any_cons, List.any_nil, Bool.or_false]

/-- the literals of the clauses have the applications that the term has -/
theorem applies_clauses (t : Term) :
    (t.clauses.any fun c => c.literals.any (applies r live)) = t.applies r live := by
  rw [← applies_operands hr .conj t, clauses]
  split
  · next h =>
    rw [h, List.any_cons, List.any_nil, applies_ofLiterals hr, List.any_cons, List.any_nil, verum,
      applies_atom]
    rfl
  · rw [List.any_map]
    refine any_congr_left fun x _ => ?_
    rw [Function.comp_apply, applies_ofLiterals hr, applies_operands hr]

end

/-- a formula shows what its conjuncts show together -/
theorem showing_operands (t : Term) :
    .all ((t.operands .conj).map (showing r own true live)) = t.showing r own true live := by
  unfold operands
  split
  · next h =>
    have hconj : (conj t.args).showing r own true live = .all (t.args.map (showing r own true live)) :=
      showing_conj _
    rw [conj, ← eq_apply_of_operator? h] at hconj
    exact hconj.symm
  · exact Showing.and_vacant _

end OntologyPrep.Term
