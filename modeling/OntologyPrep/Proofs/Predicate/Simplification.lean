import Mathlib.Data.List.Basic
import OntologyPrep.Proofs.Predicate.Consumption
import OntologyPrep.Proofs.Term.Referent

/-!
# Leaving out what is true

Where the known terms are true and have no variables, the simplified formula says what the formula
says, and its names are free and bound as they were (`Term.keeps_simplify`).

* `Term.simplify_equivalent`   simplification is an equivalence under every classical truth that has the
                               known formulas and truth for true;
* `Term.variableOccurrences_simplify`   no variable of any term comes to occur more often.
-/

namespace OntologyPrep.Term

universe u

variable {D : Type u} {T : Valuation D → Term → Prop} {P : Term → Prop} {known : List Term}
  {s t u : Term}

/-- the term has no variables and is true -/
def IsFact (T : Valuation D → Term → Prop) (t : Term) : Prop :=
  t.containsVariable = false ∧ ∀ v, T v t

theorem isFact_verum (h : ∀ v, T v verum) : verum.IsFact T := by
  refine ⟨?_, h⟩
  rw [verum, containsVariable_atom]
  decide

/-- a formula without variables binds none -/
theorem quantifiersOf_ground {f : Fragment} (hP : ∀ s, P s → s.Plain)
    (ht : t.IsFormula P f) (hground : t.containsVariable = false) (name : String) (sign : Sign) :
    t.quantifiersOf name sign = [] := by
  induction ht generalizing sign with
  | atomic h => exact quantifiersOf_plain (hP _ h) sign
  | literal h => rw [quantifiersOf_neg, quantifiersOf_plain (hP _ h)]
  | conj _ ih =>
    rw [quantifiersOf_conj, List.flatMap_eq_nil_iff]
    exact fun x hx => ih x hx (containsVariable_list.mp hground x (List.mem_cons_of_mem _ hx)) sign
  | disj _ ih =>
    rw [quantifiersOf_disj, List.flatMap_eq_nil_iff]
    exact fun x hx => ih x hx (containsVariable_list.mp hground x (List.mem_cons_of_mem _ hx)) sign
  | neg _ _ ih =>
    rw [quantifiersOf_neg]
    exact ih (containsVariable_list.mp hground _ (by simp)) _
  | implies _ _ _ ihs iht =>
    rw [quantifiersOf_implies, ihs (containsVariable_list.mp hground _ (by simp)),
      iht (containsVariable_list.mp hground _ (by simp))]
    rfl
  | iff _ _ _ ihs iht =>
    rw [quantifiersOf_iff, ihs (containsVariable_list.mp hground _ (by simp)),
      iht (containsVariable_list.mp hground _ (by simp))]
    rfl
  | @quantified q names body _ hnames _ ih =>
    have hparts := containsVariable_list.mp hground
    rw [quantifiersOf_quantified, ih (hparts _ (by simp)), if_neg, List.append_nil]
    intro hn
    have hentries := containsVariable_list.mp (hparts (.list (names.map atom)) (by simp))
      (.atom name) (List.mem_map_of_mem hn)
    rw [containsVariable_atom, hnames name hn] at hentries
    cases hentries

/-! ## formulas that may take each other's place -/

/-- the second formula says what the first one says, and names are free and bound in it as in the first
one -/
structure Keeps (T : Valuation D → Term → Prop) (P : Term → Prop) (t u : Term) : Prop where
  isFormula : u.IsFormula P .full
  truth : ∀ v, T v u ↔ T v t
  free : ∀ name, name ∈ u.freeVariables ↔ name ∈ t.freeVariables
  bound : ∀ name sign, u.quantifiersOf name sign = t.quantifiersOf name sign

namespace Keeps

theorem refl (ht : t.IsFormula P .full) : Keeps T P t t :=
  ⟨ht, fun _ => Iff.rfl, fun _ => Iff.rfl, fun _ _ => rfl⟩

theorem trans (hst : Keeps T P s t) (htu : Keeps T P t u) : Keeps T P s u where
  isFormula := htu.isFormula
  truth v := (htu.truth v).trans (hst.truth v)
  free name := (htu.free name).trans (hst.free name)
  bound name sign := (htu.bound name sign).trans (hst.bound name sign)

theorem speaksOfAll (h : Keeps T P t u) (name : String) :
    u.speaksOfAll name = t.speaksOfAll name := by
  have hfree := h.free name
  simp only [← List.contains_iff_mem] at hfree
  rw [Term.speaksOfAll, Term.speaksOfAll, h.bound, Bool.eq_iff_iff.mpr hfree]

theorem neg (hT : IsClassical T) (h : Keeps T P t u) : Keeps T P t.neg u.neg where
  isFormula := .neg trivial h.isFormula
  truth v := by
    rw [hT.neg, hT.neg]
    exact not_congr (h.truth v)
  free name := by
    rw [mem_freeVariables_neg, mem_freeVariables_neg]
    exact h.free name
  bound name sign := by rw [quantifiersOf_neg, quantifiersOf_neg, h.bound]

theorem disj (hT : IsClassical T) {args : List Term} {g : Term → Term} (h : ∀ x ∈ args, Keeps T P x (g x)) :
    Keeps T P (.disj args) (.disj (args.map g)) where
  isFormula := .disj (List.forall_mem_map.mpr fun x hx => (h x hx).isFormula)
  truth v := by
    rw [hT.disj, hT.disj, exists_mem_map]
    exact exists_congr fun x => and_congr_right fun hx => (h x hx).truth v
  free name := by
    rw [mem_freeVariables_disj, mem_freeVariables_disj, exists_mem_map]
    exact exists_congr fun x => and_congr_right fun hx => (h x hx).free name
  bound name sign := by
    rw [quantifiersOf_disj, quantifiersOf_disj, List.flatMap_map, List.flatMap_def, List.flatMap_def,
      List.map_congr_left fun x hx => (h x hx).bound name sign]

theorem implies (hT : IsClassical T) {s' t' : Term} (hs : Keeps T P s s') (ht : Keeps T P t t') :
    Keeps T P (.implies s t) (.implies s' t') where
  isFormula := .implies trivial hs.isFormula ht.isFormula
  truth v := by
    rw [hT.implies, hT.implies]
    exact imp_congr (hs.truth v) (ht.truth v)
  free name := by
    rw [mem_freeVariables_implies, mem_freeVariables_implies]
    exact or_congr (hs.free name) (ht.free name)
  bound name sign := by rw [quantifiersOf_implies, quantifiersOf_implies, hs.bound, ht.bound]

theorem iff (hT : IsClassical T) {s' t' : Term} (hs : Keeps T P s s') (ht : Keeps T P t t') :
    Keeps T P (.iff s t) (.iff s' t') where
  isFormula := .iff trivial hs.isFormula ht.isFormula
  truth v := by
    rw [hT.iff, hT.iff]
    exact iff_congr (hs.truth v) (ht.truth v)
  free name := by
    rw [mem_freeVariables_iff, mem_freeVariables_iff]
    exact or_congr (hs.free name) (ht.free name)
  bound name sign := by rw [quantifiersOf_iff, quantifiersOf_iff, hs.bound, ht.bound]

theorem quantified (hT : IsClassical T) {q : Quantifier} {names : List String} (h : Keeps T P t u)
    (hnames : ∀ n ∈ names, Name.isVariable n = true) :
    Keeps T P (.quantified q.name names t) (.quantified q.name names u) where
  isFormula := .quantified trivial hnames h.isFormula
  truth v := by
    cases q with
    | all =>
      rw [hT.all, hT.all]
      exact forall₂_congr fun w _ => h.truth w
    | any =>
      rw [hT.any, hT.any]
      exact exists_congr fun w => and_congr_right fun _ => h.truth w
  free name := by
    rw [mem_freeVariables_quantified, mem_freeVariables_quantified]
    exact and_congr_left' (h.free name)
  bound name sign := by rw [quantifiersOf_quantified, quantifiersOf_quantified, h.bound]

/-! ## leaving out -/

/-- a fact need not be assumed -/
theorem drop_antecedent (hT : IsClassical T) (hP : ∀ s, P s → s.Plain) (hs : s.IsFormula P .full) (hfact : s.IsFact T)
    (ht : t.IsFormula P .full) : Keeps T P (.implies s t) t where
  isFormula := ht
  truth v := by
    rw [hT.implies]
    exact ⟨fun h _ => h, fun h => h (hfact.2 v)⟩
  free name := by
    rw [mem_freeVariables_implies, freeVariables_eq_nil hfact.1]
    simp
  bound name sign := by
    rw [quantifiersOf_implies, quantifiersOf_ground hP hs hfact.1,
      List.nil_append]

theorem dropTrueAntecedent (hT : IsClassical T) (hP : ∀ s, P s → s.Plain) (htrue : ∀ v, T v verum)
    (hs : s.IsFormula P .full) (ht : t.IsFormula P .full) :
    Keeps T P (.implies s t) (Term.dropTrueAntecedent (.list [.atom "=>", s, t])) := by
  unfold Term.dropTrueAntecedent
  split
  · next t' he =>
    cases he
    exact drop_antecedent hT hP hs (isFact_verum htrue) ht
  · exact refl (.implies trivial hs ht)

/-- each of the formulas is left out as a fact or replaced by one that keeps what it says -/
def LeavesOut (T : Valuation D → Term → Prop) (P : Term → Prop) (g : Term → Option Term)
    (args : List Term) : Prop :=
  ∀ x ∈ args, g x = none ∧ x.IsFact T ∨ ∃ y, g x = some y ∧ Keeps T P x y

section

variable {args : List Term} {g : Term → Option Term}

theorem LeavesOut.keeps (h : LeavesOut T P g args) {x y : Term} (hx : x ∈ args) (hy : g x = some y) :
    Keeps T P x y := by
  rcases h x hx with ⟨hnone, _⟩ | ⟨z, hz, hkeeps⟩
  · rw [hnone] at hy
    cases hy
  · obtain rfl := Option.some.inj (hz.symm.trans hy)
    exact hkeeps

theorem LeavesOut.quantifiersOf_filterMap (h : LeavesOut T P g args) (hP : ∀ s, P s → s.Plain)
    (hargs : ∀ x ∈ args, x.IsFormula P .full) (name : String) (sign : Sign) :
    (args.filterMap g).flatMap (fun x => x.quantifiersOf name sign) =
      args.flatMap fun x => x.quantifiersOf name sign := by
  induction args with
  | nil => rfl
  | cons x xs ih =>
    have hrest := ih (fun y hy => h y (List.mem_cons_of_mem _ hy)) fun y hy =>
      hargs y (List.mem_cons_of_mem _ hy)
    rcases h x List.mem_cons_self with ⟨hnone, hfact⟩ | ⟨y, hy, hkeeps⟩
    · rw [List.filterMap_cons_none hnone, hrest, List.flatMap_cons,
        quantifiersOf_ground hP (hargs x List.mem_cons_self) hfact.1, List.nil_append]
    · rw [List.filterMap_cons_some hy, List.flatMap_cons, List.flatMap_cons, hrest, hkeeps.bound]

/-- a conjunction may leave facts out -/
theorem conj_filterMap (hT : IsClassical T) (hP : ∀ s, P s → s.Plain)
    (hargs : ∀ x ∈ args, x.IsFormula P .full) (h : LeavesOut T P g args) :
    Keeps T P (.conj args) (.conj (args.filterMap g)) := by
  have hkept : ∀ y ∈ args.filterMap g, ∃ x ∈ args, Keeps T P x y := by
    intro y hy
    obtain ⟨x, hx, hxy⟩ := List.mem_filterMap.mp hy
    exact ⟨x, hx, h.keeps hx hxy⟩
  constructor
  case isFormula =>
    refine .conj fun y hy => ?_
    obtain ⟨_, _, hkeeps⟩ := hkept y hy
    exact hkeeps.isFormula
  case truth =>
    intro v
    rw [hT.conj, hT.conj]
    constructor
    · intro hall x hx
      rcases h x hx with ⟨_, hfact⟩ | ⟨y, hy, hkeeps⟩
      · exact hfact.2 v
      · exact (hkeeps.truth v).mp (hall y (List.mem_filterMap.mpr ⟨x, hx, hy⟩))
    · intro hall y hy
      obtain ⟨x, hx, hkeeps⟩ := hkept y hy
      exact (hkeeps.truth v).mpr (hall x hx)
  case free =>
    intro name
    rw [mem_freeVariables_conj, mem_freeVariables_conj]
    constructor
    · rintro ⟨y, hy, hname⟩
      obtain ⟨x, hx, hkeeps⟩ := hkept y hy
      exact ⟨x, hx, (hkeeps.free name).mp hname⟩
    · rintro ⟨x, hx, hname⟩
      rcases h x hx with ⟨_, hfact⟩ | ⟨y, hy, hkeeps⟩
      · rw [freeVariables_eq_nil hfact.1] at hname
        cases hname
      · exact ⟨y, List.mem_filterMap.mpr ⟨x, hx, hy⟩, (hkeeps.free name).mpr hname⟩
  case bound =>
    intro name sign
    rw [quantifiersOf_conj, quantifiersOf_conj, h.quantifiersOf_filterMap hP hargs]

end

/-- a conjunction of one formula, or of none -/
theorem conjoin (hT : IsClassical T) (hP : ∀ s, P s → s.Plain) (hverum : P verum)
    (htrue : ∀ v, T v verum) {args : List Term} (hargs : ∀ x ∈ args, x.IsFormula P .full) :
    Keeps T P (.conj args) (Term.conjoin args) := by
  match args with
  | [] =>
    refine ⟨.atomic hverum, fun v => ?_, fun name => ?_, fun name sign => ?_⟩
    · rw [Term.conjoin, hT.conj]
      exact iff_of_true (htrue v) (List.forall_mem_nil _)
    · rw [Term.conjoin, mem_freeVariables_conj, freeVariables_eq_nil (isFact_verum htrue).1]
      simp
    · rw [Term.conjoin, quantifiersOf_conj, quantifiersOf_plain (hP _ hverum)]
      rfl
  | [x] =>
    refine ⟨hargs x List.mem_cons_self, fun v => ?_, fun name => ?_, fun name sign => ?_⟩
    · rw [Term.conjoin, hT.conj, List.forall_mem_singleton]
    · rw [Term.conjoin, mem_freeVariables_conj]
      simp
    · rw [Term.conjoin, quantifiersOf_conj, List.flatMap_singleton]
  | x :: y :: rest => exact refl (.conj hargs)

end Keeps

/-! ## simplification -/

theorem simplifyBy_conj (args : List Term) : (conj args).simplifyBy known =
    conjoin (args.filterMap fun a => if a ∈ known then none else some (a.simplifyBy known)) := by
  show (list (.atom "and" :: args)).simplifyBy known = _
  rw [simplifyBy]

theorem simplifyBy_implies (s t : Term) : (implies s t).simplifyBy known =
    if s ∈ known then t.simplifyBy known
    else dropTrueAntecedent (.list [.atom "=>", s.simplifyBy known, t.simplifyBy known]) := by
  show (list [.atom "=>", s, t]).simplifyBy known = _
  rw [simplifyBy]

theorem simplifyBy_apply {o : Operator} (hconj : o ≠ .conj) (himplies : o ≠ .implies)
    (args : List Term) :
    (apply o args).simplifyBy known = apply o (args.map fun x => x.simplifyBy known) := by
  have htransparent : isTransparent o.name = true := by
    rw [isTransparent, Name.isOperator, Operator.ofName?_name]
    rfl
  have hname : ∀ {p : Operator}, o.name = p.name → o = p := by
    intro p h
    have hp := Operator.ofName?_name o
    rw [h, Operator.ofName?_name] at hp
    exact (Option.some.inj hp).symm
  rw [apply, app, simplifyBy, htransparent, apply, app]
  · exact fun h => hconj (hname h)
  · exact fun _ _ _ h => himplies (hname h)

theorem simplifyBy_plain (ht : t.Plain) : t.simplifyBy known = t := by
  induction t using binderInduction with
  | atom a => rw [simplifyBy] <;> simp
  | binder b _ => exact absurd rfl (ht.head_ne (.quant b.quantifier))
  | list xs _ ih =>
    cases xs with
    | nil => rw [simplifyBy] <;> simp
    | cons x args =>
      cases x with
      | list ys => rw [simplifyBy] <;> simp
      | atom a =>
        have hargs : args.map (fun x => x.simplifyBy known) = args := by
          rw [List.map_congr_left fun x hx => ih x (List.mem_cons_of_mem _ hx)
            (ht.of_mem (List.mem_cons_of_mem _ hx))]
          exact List.map_id' args
        rw [simplifyBy, hargs]
        · cases isTransparent a <;> rfl
        · exact ht.head_ne .conj
        · exact fun _ _ _ h => ht.head_ne .implies h

theorem keeps_simplifyBy (hT : IsClassical T) (hP : ∀ s, P s → s.Plain) (hverum : P verum)
    (htrue : ∀ v, T v verum) (hknown : ∀ k ∈ known, k.IsFact T) (ht : t.IsFormula P .full) :
    Keeps T P t (t.simplifyBy known) := by
  induction ht with
  | atomic h =>
    rw [simplifyBy_plain (hP _ h)]
    exact .refl (.atomic h)
  | literal h =>
    rw [Term.neg, simplifyBy_apply (by decide) (by decide), List.map_singleton,
      simplifyBy_plain (hP _ h)]
    exact .refl (.literal h)
  | conj hargs ih =>
    rw [simplifyBy_conj]
    have hfilter := Keeps.conj_filterMap hT hP hargs
      (g := fun a => if a ∈ known then none else some (a.simplifyBy known)) fun x hx => by
        by_cases hk : x ∈ known
        · exact .inl ⟨if_pos hk, hknown x hk⟩
        · exact .inr ⟨_, if_neg hk, ih x hx⟩
    refine hfilter.trans (.conjoin hT hP hverum htrue fun y hy => ?_)
    obtain ⟨x, hx, hxy⟩ := List.mem_filterMap.mp hy
    split at hxy
    · cases hxy
    · cases hxy
      exact (ih x hx).isFormula
  | disj _ ih =>
    rw [Term.disj, simplifyBy_apply (by decide) (by decide)]
    exact .disj hT ih
  | neg _ _ ih =>
    rw [Term.neg, simplifyBy_apply (by decide) (by decide)]
    exact .neg hT ih
  | @implies s t _ hs ht ihs iht =>
    rw [simplifyBy_implies]
    split
    · next hk => exact (Keeps.drop_antecedent hT hP hs (hknown s hk) ht).trans iht
    · exact (Keeps.implies hT ihs iht).trans
        (.dropTrueAntecedent hT hP htrue ihs.isFormula iht.isFormula)
  | iff _ _ _ ihs iht =>
    rw [Term.iff, simplifyBy_apply (by decide) (by decide)]
    exact .iff hT ihs iht
  | @quantified q names body _ hnames _ ih =>
    show Keeps T P _ ((apply (.quant q) [.list (names.map atom), body]).simplifyBy known)
    rw [simplifyBy_apply (by simp) (by simp), List.map_cons, List.map_singleton,
      simplifyBy_plain (plain_names hnames)]
    exact .quantified hT ih hnames

/-- simplification by facts changes neither what a formula says nor its names -/
theorem keeps_simplify (hT : IsClassical T) (hP : ∀ s, P s → s.Plain) (hverum : P verum)
    (htrue : ∀ v, T v verum) (hknown : ∀ k ∈ known, k.IsFact T) (ht : t.IsFormula P .full) :
    Keeps T P t (t.simplify known) := by
  unfold simplify
  split
  · exact .refl ht
  · exact keeps_simplifyBy hT hP hverum htrue hknown ht

/-! ## occurrences of variables -/

theorem variableOccurrences_verum : verum.variableOccurrences = [] := by
  rw [verum, variableOccurrences_atom]
  decide

theorem variableOccurrences_app {head : String} (h : Name.isVariable head = false)
    (args : List Term) : (app head args).variableOccurrences = args.flatMap variableOccurrences := by
  rw [app, variableOccurrences_list, List.flatMap_cons, variableOccurrences_atom, if_neg (by simp [h]),
    List.nil_append]

theorem variableOccurrences_conjoin (ts : List Term) :
    (conjoin ts).variableOccurrences = ts.flatMap variableOccurrences := by
  match ts with
  | [] => exact variableOccurrences_verum
  | [t] => exact (List.flatMap_singleton _ _).symm
  | s :: t :: rest => exact variableOccurrences_app (by decide) _

theorem variableOccurrences_dropTrueAntecedent (t : Term) :
    (dropTrueAntecedent t).variableOccurrences.Sublist t.variableOccurrences := by
  unfold dropTrueAntecedent
  split
  · next t =>
    simp only [variableOccurrences_list, List.flatMap_cons, List.flatMap_nil, List.append_nil]
    exact (List.sublist_append_right _ _).trans (List.sublist_append_right _ _)
  · exact .refl _

/-- what is made of some of the members has no more occurrences than they have -/
theorem variableOccurrences_filterMap {args : List Term} {g : Term → Option Term}
    (h : ∀ x ∈ args, ∀ y, g x = some y → y.variableOccurrences.Sublist x.variableOccurrences) :
    ((args.filterMap g).flatMap variableOccurrences).Sublist
      (args.flatMap variableOccurrences) := by
  induction args with
  | nil => exact .refl _
  | cons x xs ih =>
    obtain ⟨hx, hxs⟩ := List.forall_mem_cons.mp h
    rw [List.flatMap_cons]
    cases hg : g x with
    | none =>
      rw [List.filterMap_cons_none hg]
      exact (ih hxs).trans (List.sublist_append_right _ _)
    | some y =>
      rw [List.filterMap_cons_some hg, List.flatMap_cons]
      exact (hx y hg).append (ih hxs)

/-- the variables of the simplified term are some of those of the term, in their order -/
theorem variableOccurrences_simplifyBy (known : List Term) (t : Term) :
    (t.simplifyBy known).variableOccurrences.Sublist t.variableOccurrences := by
  induction t using simplifyBy.induct known with
  | case1 args ih =>
    rw [simplifyBy, variableOccurrences_conjoin]
    show List.Sublist _ (app "and" args).variableOccurrences
    rw [variableOccurrences_app (by decide)]
    refine variableOccurrences_filterMap fun x hx y hy => ?_
    split at hy
    · cases hy
    · cases hy
      exact ih x hx
  | case2 antecedent consequent hknown ih =>
    rw [simplifyBy, if_pos hknown]
    show List.Sublist _ (app "=>" [antecedent, consequent]).variableOccurrences
    rw [variableOccurrences_app (by decide), List.flatMap_cons, List.flatMap_singleton]
    exact ih.trans (List.sublist_append_right _ _)
  | case3 antecedent consequent hknown ihs iht =>
    rw [simplifyBy, if_neg hknown]
    refine (variableOccurrences_dropTrueAntecedent _).trans ?_
    show (app "=>" [_, _]).variableOccurrences.Sublist (app "=>" [_, _]).variableOccurrences
    rw [variableOccurrences_app (by decide), variableOccurrences_app (by decide)]
    simp only [List.flatMap_cons, List.flatMap_nil, List.append_nil]
    exact ihs.append iht
  | case4 head args hand himplies htransparent ih =>
    rw [simplifyBy, htransparent]
    · rw [variableOccurrences_list, variableOccurrences_list, List.flatMap_cons, List.flatMap_cons,
        ← List.filterMap_eq_map]
      refine (List.Sublist.refl _).append (variableOccurrences_filterMap fun x hx y hy => ?_)
      cases hy
      exact ih x hx
    · exact hand
    · exact himplies
  | case5 head args hand himplies hopaque =>
    have hself : (list (.atom head :: args)).simplifyBy known = .list (.atom head :: args) := by
      rw [simplifyBy, hopaque] <;> assumption
    exact hself.symm ▸ List.Sublist.refl _
  | case6 t _ _ _ =>
    have hself : t.simplifyBy known = t := by rw [simplifyBy] <;> assumption
    exact hself.symm ▸ List.Sublist.refl _

/-- no variable comes to occur more often -/
theorem variableOccurrences_simplify (t : Term) (known : List Term) :
    (t.simplify known).variableOccurrences.Sublist t.variableOccurrences := by
  unfold simplify
  split
  · exact .refl _
  · exact variableOccurrences_simplifyBy known t

/-! ## equivalence -/

/-- A formula simplified by known ground terms is true exactly if the formula is, for all values of the
names and under every classical truth that has the known terms and truth itself for true.  Nor has any
term more occurrences of variables after it is simplified, whatever is known. -/
theorem simplify_equivalent (t : Term) (known : List Term) :
    (t.IsFormula Plain .full → (∀ k ∈ known, k.containsVariable = false) →
      ∀ (D : Type u) (T : Valuation D → Term → Prop), IsClassical T → (∀ v, T v verum) →
        (∀ k ∈ known, ∀ v, T v k) → ∀ v, T v (t.simplify known) ↔ T v t) ∧
      (t.simplify known).variableOccurrences.length ≤ t.variableOccurrences.length := by
  refine ⟨?_, (variableOccurrences_simplify t known).length_le⟩
  intro ht hground D T hT htrue hknown v
  have hfacts : ∀ k ∈ known, k.IsFact T := fun k hk => ⟨hground k hk, hknown k hk⟩
  exact (keeps_simplify hT (fun _ h => h) (plain_atom (by decide)) htrue hfacts ht).truth v

/-- `(forall (?X) (=> (p a) (not (and (p a) (q ?X)))))` -/
def guardedTwice : Term :=
  quantified "forall" ["?X"] (implies (app "p" [.atom "a"])
    (conj [app "p" [.atom "a"], app "q" [.atom "?X"]]).neg)

theorem isFormula_guardedTwice : guardedTwice.IsFormula Plain .full := by
  have hp : (app "p" [.atom "a"]).Plain :=
    plain_list (by simp +decide [plain_atom])
  have hq : (app "q" [.atom "?X"]).Plain :=
    plain_list (by simp +decide [plain_atom])
  exact .quantified (q := .all) trivial (by decide) (.implies trivial (.atomic hp)
    (.neg trivial (.conj (by simp [IsFormula.atomic, hp, hq]))))

/-- both guards go where `(p a)` is true -/
theorem simplify_guardedTwice :
    guardedTwice.simplify [app "p" [.atom "a"]] =
        quantified "forall" ["?X"] (app "q" [.atom "?X"]).neg ∧
      (∀ v : Valuation Unit,
        (guardedTwice.simplify [app "p" [.atom "a"]]).Truth (fun _ t => t = app "p" [.atom "a"]) v ↔
          guardedTwice.Truth (fun _ t => t = app "p" [.atom "a"]) v) ∧
      (guardedTwice.simplify [app "p" [.atom "a"]]).variableOccurrences.length ≤
        guardedTwice.variableOccurrences.length := by
  obtain ⟨hequiv, hcount⟩ := simplify_equivalent.{0} guardedTwice [app "p" [.atom "a"]]
  refine ⟨by cbv, hequiv isFormula_guardedTwice ?_ Unit _ (isClassical_truth _)
    (fun _ => truth_verum) ?_, hcount⟩
  · exact List.forall_mem_singleton.mpr (by cbv)
  · exact List.forall_mem_singleton.mpr fun v => (truth_app _ (by decide)).mpr rfl

end OntologyPrep.Term
