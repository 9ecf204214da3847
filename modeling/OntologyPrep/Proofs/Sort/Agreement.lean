import OntologyPrep.Proofs.Meaning.Sorted
import OntologyPrep.Proofs.Sort.Scope
import OntologyPrep.Sort.Inference

/-!
# Two ways to the types of a variable

The types of a variable can be read off the guards that restricting puts on it, or be collected for the
variable alone.  Restricting looks at all variables in one walk and leaves the types on a shelf;
collecting walks through the formula once for every variable and looks at an application before what it
is applied to.

Both look at the same places (`Term.freePlaces`), in a formula without quantifiers where no `equal`,
`instance` and `subclass` is applied: collecting adds up the types of the free places of the variable
(`Inferring.adds_addTerm`), and so do the frames of the shelf (`Binder.mem_guards_frames`).  As neither
changes the types that are found later, the results agree, whichever comes first
(`Term.typesOf_agrees_restrictTypes`).
-/

namespace OntologyPrep

namespace Term

/-- a formula of connectives over atomic formulas, without quantifiers -/
inductive IsPropositional : Term → Prop where
  | atomic {t : Term} : t.IsAtomicFormula → IsPropositional t
  | connective {o : Operator} {args : List Term} : Name.isQuantifier o.name = false →
    (∀ x ∈ args, IsPropositional x) → IsPropositional (.apply o args)

/-- the relations that collecting may look behind, for the values of a functional term -/
def comparing : List String := ["equal", "instance", "subclass"]

/-- no part of the term is an application of one of these relations -/
def Ordinary (t : Term) : Prop := ∀ s ∈ t.subterms, ∀ f ∈ s.head?, f ∉ comparing

theorem Ordinary.of_mem {items : List Term} (h : (list items).Ordinary) {x : Term}
    (hx : x ∈ items) : x.Ordinary := by
  intro s hs
  refine h s ?_
  rw [subterms_list]
  exact List.mem_cons_of_mem _ (List.mem_flatMap.mpr ⟨x, hx, hs⟩)

theorem Ordinary.head {f : String} {args : List Term} (h : (app f args).Ordinary) :
    f ∉ comparing := h _ (self_mem_subterms _) f rfl

/-- what is free in every argument that it occurs in is free in the application -/
theorem mem_freeVariables_app_of_mem_atoms {f name : String} {args : List Term}
    (hq : Name.isQuantifier f = false) (hname : Name.isVariable name = true)
    (hf : Name.isVariable f = false) (h : ∀ x ∈ args, name ∈ x.atoms → name ∈ x.freeVariables)
    (hatom : name ∈ (app f args).atoms) : name ∈ (app f args).freeVariables := by
  rw [app, atoms_list, List.flatMap_cons, atoms_atom, List.mem_append, List.mem_singleton,
    List.mem_flatMap] at hatom
  obtain ⟨x, hx, hx'⟩ := hatom.resolve_left (Name.ne_of_isVariable hname hf)
  exact (mem_freeVariables_app hq hf).mpr ⟨x, hx, h x hx hx'⟩

theorem IsIndividual.mem_freeVariables {t : Term} (ht : t.IsIndividual) {name : String}
    (hname : Name.isVariable name = true) (h : name ∈ t.atoms) : name ∈ t.freeVariables := by
  induction ht with
  | var _ | const _ =>
    rw [atoms_atom, List.mem_singleton] at h
    exact mem_freeVariables_atom.mpr ⟨h ▸ hname, h⟩
  | app hf _ ih => exact mem_freeVariables_app_of_mem_atoms hf.not_quantifier hname hf.1 ih h

/-! ## what restricting does to a formula without quantifiers -/

theorem places_atom (a : String) : (atom a).places = [] := by
  unfold places
  rfl

theorem freePlaces_isAtomicFormula {found : Term → List Place} (hfound : ∀ a, found (.atom a) = [])
    {t : Term} (ht : t.IsAtomicFormula) : t.freePlaces found = found t := by
  cases ht with
  | const _ => rw [freePlaces_atom, hfound]
  | @app f args hf _ =>
    exact freePlaces_application found (binder?_app_eq_none args hf.not_quantifier) (by simp [hf.2])

namespace IsPropositional

variable {t : Term}

/-- the free places that restricting finds are the places of the atomic formulas -/
theorem mem_freePlaces (ht : t.IsPropositional) {p : Place} :
    p ∈ t.freePlaces places ↔ p ∈ t.freePlaces allPlaces := by
  induction ht with
  | atomic h =>
    rw [freePlaces_isAtomicFormula places_atom h, freePlaces_isAtomicFormula allPlaces_atom h]
    exact mem_places h.isIndividual
  | connective ho _ ih =>
    rw [freePlaces_apply places ho, freePlaces_apply allPlaces ho, List.mem_flatMap,
      List.mem_flatMap]
    exact exists_congr fun x => and_congr_right fun hx => ih x hx

theorem relativize_eq (ht : t.IsPropositional) (kb : KnowledgeBase)
    (type : Place → Option String) : t.relativize kb type = t := by
  induction ht with
  | atomic h => exact relativize_atomic kb type h
  | connective ho _ ih => rw [relativize_apply kb type ho, List.map_congr_left ih, List.map_id']

/-- without a quantifier every variable is free -/
theorem mem_freeVariables (ht : t.IsPropositional) {name : String} (h : name ∈ t.variableNames) :
    name ∈ t.freeVariables := by
  rw [variableNames, List.mem_eraseDups, List.mem_filter] at h
  obtain ⟨hatom, hvar⟩ := h
  induction ht with
  | atomic ht => exact ht.isIndividual.mem_freeVariables hvar hatom
  | @connective o _ ho _ ih =>
    exact mem_freeVariables_app_of_mem_atoms ho hvar o.not_isVariable ih hatom

end IsPropositional

/-- the formula with the quantifier that its free variables get -/
def outerBinder (t : Term) : Binder := ⟨.all, .list (t.freeVariables.map atom), t⟩

/-- the formula behind the guards of its variables, under a quantifier for them -/
theorem IsPropositional.restrictTypes_fst {t : Term} (ht : t.IsPropositional) (kb : KnowledgeBase)
    (cache : TypeCache) (hfree : t.freeVariables ≠ []) : (t.restrictTypes kb cache).1 =
      guarded .all t.freeVariables (t.outerBinder.guards kb cache) t := by
  have hclosed : t.closeUniversally = t.universalClosure :=
    t.closeUniversally_cases.resolve_left fun h => hfree h.1
  rw [Term.restrictTypes_fst, hclosed, universalClosure, relativize_quantified, ht.relativize_eq]
  rfl

theorem IsPropositional.mem_guards {t : Term} (ht : t.IsPropositional) {kb : KnowledgeBase}
    {cache : TypeCache} {g : Term} : g ∈ t.outerBinder.guards kb cache ↔
      ∃ n ∈ t.freeVariables, g ∈ t.guardsFor kb cache n := by
  rw [outerBinder, Binder.guards, Binder.mem_guards_frames, names_quantified]
  refine exists_congr fun n => and_congr_right fun _ =>
    KnowledgeBase.mem_guardsOf_congr fun type => ?_
  simp only [declaredFor, List.mem_filterMap, List.mem_filter, ht.mem_freePlaces]

/-- restricting does not change the types that are found -/
theorem type_restrictTypes (kb : KnowledgeBase) (cache : TypeCache) (t : Term) :
    Place.type kb (t.restrictTypes kb cache).2 = Place.type kb cache :=
  (restrict_eq (r := ⟨[], cache⟩) rfl).2.cache

end Term

/-! ## what collecting does -/

namespace Inferring

variable {kb : KnowledgeBase} {type : Term.Place → Option String} {name : String}
  {s s' s'' : Inferring}

/-- the types of some places have been added, and types are found as before -/
structure Adds (kb : KnowledgeBase) (type : Term.Place → Option String) (ps : List Term.Place)
    (s s' : Inferring) : Prop where
  found : s'.found = (ps.filterMap type).foldl Constraints.add s.found
  cache : Term.Place.type kb s'.cache = type

theorem adds_nil (hs : Term.Place.type kb s.cache = type) : Adds kb type [] s s := ⟨rfl, hs⟩

theorem Adds.trans {ps qs : List Term.Place} (h : Adds kb type ps s s')
    (h' : Adds kb type qs s' s'') : Adds kb type (ps ++ qs) s s'' :=
  ⟨by rw [h'.found, h.found, List.filterMap_append, List.foldl_append], h'.cache⟩

/-- the type of one place -/
theorem adds_typeOf (hs : Term.Place.type kb s.cache = type) (p : Term.Place) :
    Adds kb type [p] s (match (typeOf kb p.relation p.position s).1 with
      | some found => (add found (typeOf kb p.relation p.position s).2).2
      | none => (typeOf kb p.relation p.position s).2) := by
  have hcache : Term.Place.type kb (kb.typeOf p.relation p.position s.cache).2 = type := by
    rw [Term.Place.type_typeOf, hs]
  have hp : (typeOf kb p.relation p.position s).1 = type p := by
    rw [← hs]
    rfl
  rw [hp]
  cases htype : type p with
  | none => exact ⟨by simp [htype, typeOf], hcache⟩
  | some found => exact ⟨by simp [htype, typeOf, add], hcache⟩

/-- the arguments that the variable fills -/
theorem adds_addArguments (hname : Name.isVariable name = true) (relation : String)
    (position : Nat) (args : List Term) (hs : Term.Place.type kb s.cache = type) :
    Adds kb type (((args.zipIdx position).filterMap (Term.placeAt? relation)).filter
      fun p => p.name = name) s (addArguments kb name relation position args s).2 := by
  induction args generalizing position s with
  | nil => exact adds_nil hs
  | cons t ts ih =>
    rw [addArguments, List.zipIdx_cons]
    by_cases ht : t = .atom name
    · subst ht
      have hstep := adds_typeOf hs ⟨name, relation, position⟩
      rw [List.filterMap_cons_some (b := ⟨name, relation, position⟩)
        (by simp [Term.placeAt?, hname]), List.filter_cons_of_pos (by simp)]
      simp only [if_true, State.bind_apply]
      cases htype : (typeOf kb relation position s).1 with
      | none =>
        simp only [htype] at hstep
        exact hstep.trans (ih _ hstep.cache)
      | some found =>
        simp only [htype] at hstep
        exact hstep.trans (ih _ hstep.cache)
    · have hother : ∀ p, Term.placeAt? relation (t, position) = some p → ¬ p.name = name := by
        intro p hp hpname
        obtain ⟨a, ha, rfl⟩ := Option.map_eq_some_iff.mp hp
        exact ht (hpname ▸ Term.name?_eq_some_iff.mp (Option.filter_eq_some_iff.mp ha).1)
      rw [if_neg ht]
      cases hplace : Term.placeAt? relation (t, position) with
      | none =>
        rw [List.filterMap_cons_none hplace]
        exact ih _ hs
      | some p =>
        rw [List.filterMap_cons_some hplace,
          List.filter_cons_of_neg (by simpa using hother p hplace)]
        exact ih _ hs

theorem adds_mapM {ps : Term → List Term.Place} {xs : List Term} (h : ∀ x ∈ xs, ∀ {s : Inferring},
    Term.Place.type kb s.cache = type → Adds kb type (ps x) s (addTerm kb name x s).2)
    (hs : Term.Place.type kb s.cache = type) :
    Adds kb type (xs.flatMap ps) s (xs.mapM (addTerm kb name) s).2 := by
  induction xs generalizing s with
  | nil => exact adds_nil hs
  | cons x xs ih =>
    obtain ⟨hx, hxs⟩ := List.forall_mem_cons.mp h
    have hfirst := hx hs
    rw [State.mapM_cons_apply, List.flatMap_cons]
    exact hfirst.trans (ih hxs hfirst.cache)

/-! ## the equations of collecting -/

theorem addTerm_atom (kb : KnowledgeBase) (name a : String) (s : Inferring) :
    addTerm kb name (.atom a) s = ((), s) := by
  rw [addTerm]
  rfl

/-- nothing is collected at a connective itself -/
theorem addTerm_apply (kb : KnowledgeBase) (name : String) {o : Operator}
    (ho : Name.isQuantifier o.name = false) (args : List Term) (s : Inferring) :
    addTerm kb name (.apply o args) s = ((), (args.mapM (addTerm kb name) s).2) := by
  have hb : (Term.list (.atom o.name :: args)).binder? = none := Term.binder?_app_eq_none args ho
  have ho : Name.isOperator o.name = true := by simp [Name.isOperator]
  rw [Term.apply, Term.app, addTerm]
  generalize hfound : (Term.list (.atom o.name :: args)).binder? = found at hb
  subst hb
  simp [ho, addTerm_atom]

/-- an application is looked at before its arguments -/
theorem addTerm_app (kb : KnowledgeBase) (name : String) {f : String} (hf : Name.IsConstant f)
    (args : List Term) (s : Inferring) : addTerm kb name (.app f args) s =
      ((), (args.mapM (addTerm kb name) (addApplication kb name f args s).2).2) := by
  have hb : (Term.list (.atom f :: args)).binder? = none :=
    Term.binder?_app_eq_none args hf.not_quantifier
  rw [Term.app, addTerm]
  generalize hfound : (Term.list (.atom f :: args)).binder? = found at hb
  subst hb
  simp [hf.2, addTerm_atom]

theorem addApplication_eq (kb : KnowledgeBase) (name : String) {f : String}
    (hf : f ∉ Term.comparing) (args : List Term) :
    addApplication kb name f args = addArguments kb name f 1 args := by
  unfold addApplication
  split <;> simp_all [Term.comparing]

/-! ## what is collected -/

theorem adds_isIndividual (hname : Name.isVariable name = true) {t : Term} (ht : t.IsIndividual)
    (hordinary : t.Ordinary) (hs : Term.Place.type kb s.cache = type) :
    Adds kb type (t.allPlaces.filter fun p => p.name = name) s (addTerm kb name t s).2 := by
  induction ht generalizing s with
  | var _ | const _ =>
    rw [addTerm_atom, Term.allPlaces_atom]
    exact adds_nil hs
  | @app f args hf _ ih =>
    have hown := adds_addArguments hname f 1 args hs
    rw [addTerm_app kb name hf, addApplication_eq kb name hordinary.head, Term.app,
      Term.allPlaces_list, List.flatMap_cons, Term.allPlaces_atom, List.nil_append,
      List.filter_append, List.filter_flatMap]
    exact hown.trans (adds_mapM
      (fun x hx _ hs => ih x hx (hordinary.of_mem (List.mem_cons_of_mem _ hx)) hs) hown.cache)

/-- what is collected for a variable are the types of its free places -/
theorem adds_addTerm (hname : Name.isVariable name = true) {t : Term} (ht : t.IsPropositional)
    (hordinary : t.Ordinary) (hs : Term.Place.type kb s.cache = type) :
    Adds kb type ((t.freePlaces Term.allPlaces).filter fun p => p.name = name) s
      (addTerm kb name t s).2 := by
  induction ht generalizing s with
  | atomic h =>
    rw [Term.freePlaces_isAtomicFormula Term.allPlaces_atom h]
    exact adds_isIndividual hname h.isIndividual hordinary hs
  | connective ho _ ih =>
    rw [Term.freePlaces_apply _ ho, addTerm_apply kb name ho, List.filter_flatMap]
    exact adds_mapM
      (fun x hx _ hs => ih x hx (hordinary.of_mem (List.mem_cons_of_mem _ hx)) hs) hs

end Inferring

/-! ## the guards of a variable and the types of a variable -/

namespace Frame

variable {kb : KnowledgeBase} {f : Frame} {c : String}

theorem mem_guards_instance : .app "instance" [.atom f.name, .atom c] ∈ f.guards kb ↔
    c ∈ kb.winnow f.constraints.instances := by
  simp [guards, Term.app]

theorem mem_guards_subclass : .app "subclass" [.atom f.name, .atom c] ∈ f.guards kb ↔
    c ∈ kb.winnow f.constraints.subclasses := by
  simp [guards, Term.app]

end Frame

namespace Term

/-- a guard says what variable it is for -/
theorem eq_of_guard {name type relation v c : String}
    (h : app relation [atom v, atom c] = guard name type) : v = name := by
  unfold guard at h
  split at h <;> simp_all [app]

section

variable {kb : KnowledgeBase} {cache : TypeCache} {v : String} {t : Term}

/-- the frame that the free places of a variable would be left on -/
def frameFor (kb : KnowledgeBase) (cache : TypeCache) (v : String) (t : Term) : Frame :=
  (Frame.mk v .all .empty).constrainAll (t.declaredFor kb cache v)

theorem adds_typesOf (hv : Name.isVariable v = true) (ht : t.IsPropositional)
    (hordinary : t.Ordinary) :
    Inferring.Adds kb (Place.type kb cache) ((t.freePlaces allPlaces).filter fun p => p.name = v)
      ⟨.empty, cache⟩ (Inferring.addTerm kb v t ⟨.empty, cache⟩).2 :=
  Inferring.adds_addTerm hv ht hordinary rfl

theorem typesOf_fst (hv : Name.isVariable v = true) (ht : t.IsPropositional)
    (hordinary : t.Ordinary) : (t.typesOf kb v cache).1 =
      ⟨kb.winnow (t.frameFor kb cache v).constraints.instances,
        kb.winnow (t.frameFor kb cache v).constraints.subclasses⟩ := by
  rw [typesOf]
  simp only [(adds_typesOf hv ht hordinary).found]
  rfl

/-- collecting does not change the types that are found -/
theorem type_typesOf (hv : Name.isVariable v = true) (ht : t.IsPropositional)
    (hordinary : t.Ordinary) :
    Place.type kb (t.typesOf kb v cache).2 = Place.type kb cache :=
  (adds_typesOf hv ht hordinary).cache

/-- the guards for a variable are those of the frame that its free places would be left on -/
theorem mem_guards_iff (ht : t.IsPropositional) (hv : v ∈ t.freeVariables) {relation c : String} :
    app relation [atom v, atom c] ∈ t.outerBinder.guards kb cache ↔
      app relation [atom v, atom c] ∈ (t.frameFor kb cache v).guards kb := by
  rw [ht.mem_guards, frameFor, Frame.mem_guards_constrainAll rfl]
  constructor
  · rintro ⟨n, -, hg⟩
    obtain ⟨type, -, hguard⟩ := KnowledgeBase.exists_of_mem_guardsOf hg
    exact eq_of_guard hguard ▸ hg
  · exact fun hg => ⟨v, hv, hg⟩

end

/-- In a formula without quantifiers where no `equal`, `instance` and `subclass` is applied, the classes
collected for a variable are those that its guards say, with every cache and whichever is done first.  The
formula is put behind the guards, which are for free variables, and is not changed itself. -/
theorem typesOf_agrees_restrictTypes (kb : KnowledgeBase) (cache : TypeCache) {t : Term}
    (ht : t.IsPropositional) (hordinary : t.Ordinary) {v : String} (hv : v ∈ t.variableNames) :
    (∃ guards, (t.restrictTypes kb cache).1 = guarded .all t.freeVariables guards t ∧
      (∀ g ∈ guards, ∃ name ∈ t.freeVariables, ∃ type, g = guard name type) ∧
      (∀ c, c ∈ (t.typesOf kb v cache).1.instances ↔
        app "instance" [atom v, atom c] ∈ guards) ∧
      ∀ c, c ∈ (t.typesOf kb v cache).1.subclasses ↔
        app "subclass" [atom v, atom c] ∈ guards) ∧
    (t.typesOf kb v (t.restrictTypes kb cache).2).1 = (t.typesOf kb v cache).1 ∧
    (t.restrictTypes kb (t.typesOf kb v cache).2).1 = (t.restrictTypes kb cache).1 := by
  have hfree := ht.mem_freeVariables hv
  have hvar := isVariable_of_mem_freeVariables hfree
  refine ⟨⟨_, ht.restrictTypes_fst kb cache (List.ne_nil_of_mem hfree), fun g hg => ?_, fun c => ?_,
    fun c => ?_⟩, ?_, ?_⟩
  · obtain ⟨n, hn, hg⟩ := ht.mem_guards.mp hg
    obtain ⟨type, -, hguard⟩ := KnowledgeBase.exists_of_mem_guardsOf hg
    exact ⟨n, hn, type, hguard⟩
  · rw [mem_guards_iff ht hfree, typesOf_fst hvar ht hordinary]
    exact Frame.mem_guards_instance.symm
  · rw [mem_guards_iff ht hfree, typesOf_fst hvar ht hordinary]
    exact Frame.mem_guards_subclass.symm
  · rw [typesOf_fst hvar ht hordinary, typesOf_fst hvar ht hordinary, frameFor, declaredFor,
      type_restrictTypes]
    rfl
  · rw [restrictTypes_fst, type_typesOf hvar ht hordinary, restrictTypes_fst]

/-- what a lover is declared to be, and what has a kind -/
def lovingTold : List Term :=
  [app "domain" [atom "loves", atom "1", atom "Animal"],
    app "domainSubclass" [atom "kind", atom "1", atom "Thing"]]

/-- who loves his own kind owns nothing -/
def lovesItsKind : Term :=
  implies (app "loves" [atom "?X", app "kind" [atom "?X"]]) (neg (app "owns" [atom "?X", atom "?Y"]))

/-- a variable with a place in an atomic formula and one in a functional term, and the guards for it -/
theorem typesOf_agrees_lovesItsKind :
    lovesItsKind.IsPropositional ∧ lovesItsKind.Ordinary ∧ "?X" ∈ lovesItsKind.variableNames ∧
    (lovesItsKind.typesOf (.tellAll .empty lovingTold) "?X" .empty).1 = ⟨["Animal"], ["Thing"]⟩ ∧
    ∃ guards, (lovesItsKind.restrictTypes (.tellAll .empty lovingTold) .empty).1 =
        guarded .all lovesItsKind.freeVariables guards lovesItsKind ∧
      app "instance" [atom "?X", atom "Animal"] ∈ guards ∧
      app "subclass" [atom "?X", atom "Thing"] ∈ guards := by
  have hX : (atom "?X").IsIndividual := .var (by decide)
  have hY : (atom "?Y").IsIndividual := .var (by decide)
  have hkind : (app "kind" [atom "?X"]).IsIndividual :=
    .app ⟨by decide, by decide⟩ (List.forall_mem_singleton.mpr hX)
  have hloves : (app "loves" [atom "?X", app "kind" [atom "?X"]]).IsAtomicFormula :=
    .app ⟨by decide, by decide⟩
      (List.forall_mem_cons.mpr ⟨hX, List.forall_mem_singleton.mpr hkind⟩)
  have howns : (app "owns" [atom "?X", atom "?Y"]).IsAtomicFormula :=
    .app ⟨by decide, by decide⟩ (List.forall_mem_cons.mpr ⟨hX, List.forall_mem_singleton.mpr hY⟩)
  have hformula : lovesItsKind.IsPropositional := by
    refine .connective (by decide) (List.forall_mem_cons.mpr ⟨.atomic hloves,
      List.forall_mem_singleton.mpr (.connective (by decide) ?_)⟩)
    exact List.forall_mem_singleton.mpr (.atomic howns)
  have hordinary : lovesItsKind.Ordinary := by
    simp [Ordinary, comparing, lovesItsKind, implies, neg, apply, app, subterms_list, subterms_atom,
      Operator.name]
  have hvariable : "?X" ∈ lovesItsKind.variableNames := by
    rw [show lovesItsKind.variableNames = ["?X", "?Y"] by cbv]
    exact List.mem_cons_self
  have htypes : (lovesItsKind.typesOf (.tellAll .empty lovingTold) "?X" .empty).1 =
      ⟨["Animal"], ["Thing"]⟩ := by cbv
  obtain ⟨⟨guards, hguarded, -, hinstances, hsubclasses⟩, -⟩ :=
    typesOf_agrees_restrictTypes (.tellAll .empty lovingTold) .empty hformula hordinary hvariable
  rw [htypes] at hinstances hsubclasses
  exact ⟨hformula, hordinary, hvariable, htypes, guards, hguarded,
    (hinstances "Animal").mp List.mem_cons_self, (hsubclasses "Thing").mp List.mem_cons_self⟩

end Term

end OntologyPrep
