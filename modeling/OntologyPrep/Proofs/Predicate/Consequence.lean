import Mathlib.Tactic
import OntologyPrep.Proofs.Predicate.Entailment

/-!
# Instances are consequences

A formula and what has been told imply the instances of the formula (`Term.models_instantiated`) if each
variable that a row gives a value is free in the formula, or first bound by a quantified formula that
speaks of all its values, and no value holds a logical operator.  Nothing less will do
(`Term.not_instancesFollow`): the value of an existential variable is not known, an application whose
head becomes an operator is a formula of another kind, and of what is told to be an instance of a class
only the first two arguments count.
-/

namespace OntologyPrep

universe u

/-! ## readings over names -/

namespace Reading

/-- constants stand for themselves -/
def ofNames (holds : List String → Prop) : Reading String := ⟨id, fun _ => "", holds⟩

/-- told ground terms are true, and `instance` is closed upward along what is told of `subclass` -/
structure Honours {D : Type u} (R : Reading D) (kb : KnowledgeBase) : Prop where
  told : ∀ t ∈ kb.told, t.containsVariable = false → R.Models t
  upward : ∀ sub sup, kb.ToldOf "subclass" sub sup → ∀ d, R.IsInstance d sub → R.IsInstance d sup

variable {holds : List String → Prop}

theorem models_app_ofNames {head : String} {names : List String}
    (hhead : Name.isOperator head = false)
    (hnames : ∀ a ∈ head :: names, Name.isVariable a = false) :
    (ofNames holds).Models (.app head (names.map .atom)) ↔ holds (head :: names) := by
  have htruth : ∀ v, (Term.app head (names.map .atom)).Truth (ofNames holds).Says v ↔
      holds (head :: names) := by
    intro v
    rw [Term.truth_app _ hhead]
    show holds (((head :: names).map Term.atom).map fun x => (ofNames holds).denote v x) ↔ _
    have hdenote : ∀ a ∈ head :: names, (ofNames holds).denote v (.atom a) = a := fun a ha => by
      rw [denote, if_neg (by simp [hnames a ha])]
      rfl
    rw [List.map_map]
    show holds ((head :: names).map fun a => (ofNames holds).denote v (.atom a)) ↔ _
    rw [List.map_congr_left hdenote, List.map_id']
  exact ⟨fun h => (htruth fun _ => "").mp (h _), fun h v => (htruth v).mpr h⟩

/-- a told instance of a class is honoured where it is true -/
theorem honours_app_instance {D : Type u} {R : Reading D} {args : List Term}
    (h : R.Models (.app "instance" args)) :
    R.Honours (KnowledgeBase.empty.tellAll [.app "instance" args]) := by
  constructor
  · intro t ht _
    rwa [List.mem_singleton.mp (KnowledgeBase.mem_told_tellAll.mp ht)]
  · rintro sub sup ⟨t, ht, hhead, _⟩
    rw [List.mem_singleton.mp (KnowledgeBase.mem_of_told_tellAll ht)] at hhead
    exact absurd (Option.some.inj hhead) (by decide)

/-- a told instance of a class is respected where it is true, if nothing more is said of it -/
theorem respects_app_instance {D : Type u} {R : Reading D} {value cls : String}
    (h : R.Models (.app "instance" [.atom value, .atom cls])) :
    R.Respects (KnowledgeBase.empty.tellAll [.app "instance" [.atom value, .atom cls]]) := by
  have honours := honours_app_instance h
  refine ⟨fun t ht => honours.told t ht.1 (by simpa using (Bool.and_eq_true_iff.mp ht.2).1), ?_,
    honours.upward⟩
  intro item cls' hof
  obtain ⟨hitem, hcls⟩ := hof.not_variable
  obtain ⟨t, ht, _, h1, h2⟩ := hof
  obtain rfl := List.mem_singleton.mp (KnowledgeBase.mem_of_told_tellAll ht)
  cases h1
  cases h2
  have htruth := (Term.truth_app _ (by decide)).mp (h fun _ => R.constant "")
  simpa +decide [Says, Term.app, denote, hitem, hcls, IsInstance] using htruth

end Reading

namespace Term

variable {D : Type u} {R : Reading D}

/-! ## what follows -/

/-- the values that the rows give to variables of the formula -/
def assignments (kb : KnowledgeBase) (t : Term) (s : Supply) : List (String × Term) :=
  match joins kb (ClausalForm.ofTerm t s).1 (t.predicateVariables kb) with
  | .ok js => js.flatMap fun j => j.rows.flatMap Std.TreeMap.toList
  | .error _ => []

/-- a formula has its instances for consequences if it speaks of all values of the variables that are
given one -/
theorem models_instantiated (told : List Term) (hR : R.Respects (KnowledgeBase.empty.tellAll told))
    {t : Term} (ht : t.IsFormula IsApplication .full) (s : Supply)
    (hassign : ∀ p ∈ t.assignments (KnowledgeBase.empty.tellAll told) s,
      t.speaksOfAll p.1 = true ∧ p.2.Plain)
    {us : List Term} (h : (t.instantiatePredicates (KnowledgeBase.empty.tellAll told) s).1 =
      .instantiated us) (hmodels : R.Models t) : ∀ u ∈ us, R.Models u := by
  have hkb := KnowledgeBase.faithful_tellAll told
  generalize KnowledgeBase.empty.tellAll told = kb at *
  unfold instantiatePredicates at h
  split at h
  · simp only [State.bind_apply, State.pure_apply] at h
    unfold assignments at hassign
    generalize (ClausalForm.ofTerm t s).1 = form at h hassign
    unfold instances at h
    split at h
    · cases h
    · next js hjs =>
      rw [hjs] at hassign
      split at h
      · cases h
      · next found hne =>
        cases h
        refine List.forall_mem_map.mpr fun k hk => ?_
        have hrows : ∀ j ∈ js, ∀ row ∈ j.rows, Instance.Assigns
            ((js.flatMap fun j => j.rows.flatMap Std.TreeMap.toList).map Prod.fst) row.toList := by
          intro j hj row hrow p hp
          have hmem : p ∈ js.flatMap fun j => j.rows.flatMap Std.TreeMap.toList :=
            List.mem_flatMap.mpr ⟨j, hj, List.mem_flatMap.mpr ⟨row, hrow, hp⟩⟩
          obtain ⟨_, _, hfor⟩ := exists_of_mem_joins hkb hjs hj
          obtain ⟨hvar, hground⟩ := (hfor row hrow).1 p.1 p.2
            (Std.TreeMap.mem_toList_iff_getElem?_eq_some.mp hp)
          exact ⟨List.mem_map_of_mem hmem, hvar, hground, (hassign p hmem).2⟩
        refine (Instance.entailed_of_mem_run hR hkb hrows (fun i hi => ?_) hk).models hmodels
        rw [List.mem_singleton.mp hi]
        refine ⟨ht.of_atomic fun _ h => .inl h, id, fun name hname _ => ?_⟩
        obtain ⟨p, hp, rfl⟩ := List.mem_map.mp hname
        exact (hassign p hp).1
  · cases h

/-- what is an instance of the class holds of something -/
def membership (x : String) : Term :=
  implies (app "instance" [.atom x, .atom "B"]) (app x [.atom "a"])

theorem isFormula_membership {x : String} (hx : Name.isOperator x = false) :
    (membership x).IsFormula IsApplication .full := by
  refine .implies trivial (.atomic ⟨rfl, ?_⟩) (.atomic ⟨rfl, ?_⟩)
  · simp +decide [Plain, app, hx]
  · simp +decide [Plain, app, hx]

theorem models_membership {holds : List String → Prop} {x : String} (hx : Name.isVariable x = true)
    (hoperator : Name.isOperator x = false)
    (h : ∀ d, holds ["instance", d, "B"] → holds [d, "a"]) :
    (Reading.ofNames holds).Models (membership x) := by
  intro v
  rw [membership, truth_implies, truth_app _ (by decide), truth_app _ hoperator]
  simpa +decide [Reading.Says, app, Reading.denote, hx, Reading.ofNames] using h (v x)

/-- the one told instance of the class holds of something -/
theorem models_instantiated_membership :
    ((membership "?R").instantiatePredicates
        (KnowledgeBase.empty.tellAll [app "instance" [.atom "p", .atom "B"]]) ⟨0⟩).1 =
      .instantiated [app "p" [.atom "a"]] ∧
    ∀ u ∈ [app "p" [.atom "a"]],
      (Reading.ofNames fun xs => xs = ["instance", "p", "B"] ∨ xs = ["p", "a"]).Models u := by
  have hrun : ((membership "?R").instantiatePredicates
      (KnowledgeBase.empty.tellAll [app "instance" [.atom "p", .atom "B"]]) ⟨0⟩).1 =
      .instantiated [app "p" [.atom "a"]] := by cbv
  have hassign : (membership "?R").assignments
      (KnowledgeBase.empty.tellAll [app "instance" [.atom "p", .atom "B"]]) ⟨0⟩ =
      [("?R", .atom "p")] := by cbv
  have hspeaks : (membership "?R").speaksOfAll "?R" = true := by cbv
  refine ⟨hrun, models_instantiated _ (Reading.respects_app_instance ?_)
    (isFormula_membership (by decide)) ⟨0⟩ ?_ hrun ?_⟩
  · exact (@Reading.models_app_ofNames _ _ ["p", "B"] (by decide) (by decide)).mpr (.inl rfl)
  · rw [hassign]
    exact List.forall_mem_singleton.mpr ⟨hspeaks, by simp +decide [Plain]⟩
  · exact models_membership (by decide) (by decide) fun d h => by simp_all

/-! ## what does not follow -/

/-- what is said with what has been told is also said by all instances -/
def InstancesFollow (told : List Term) (t : Term) (s : Supply) : Prop :=
  ∀ us, (t.instantiatePredicates (KnowledgeBase.empty.tellAll told) s).1 = .instantiated us →
    ∀ R : Reading String, R.Honours (KnowledgeBase.empty.tellAll told) → R.Models t →
      ∀ u ∈ us, R.Models u

section

variable {told t u : Term} {args : List Term} {s : Supply} {holds : List String → Prop}

theorem not_instancesFollow_of
    (hrun : (t.instantiatePredicates (KnowledgeBase.empty.tellAll [app "instance" args]) s).1 =
      .instantiated [u]) (htold : (Reading.ofNames holds).Models (app "instance" args))
    (hmodels : (Reading.ofNames holds).Models t) (hu : ¬ (Reading.ofNames holds).Models u) :
    ¬ InstancesFollow [app "instance" args] t s := fun h =>
  hu (h _ hrun _ (Reading.honours_app_instance htold) hmodels u List.mem_cons_self)

end

/-- something holds of `a`, and everything is an instance of the class; both are bound under one name -/
def someOfAll : Term :=
  conj [quantified Quantifier.any.name ["?R"] (app "?R" [.atom "a"]),
    quantified Quantifier.all.name ["?R"] (app "instance" [.atom "?R", .atom "B"])]

theorem isFormula_someOfAll : someOfAll.IsFormula IsApplication .full := by
  have happlied : (app "?R" [.atom "a"]).Plain := by simp +decide [Plain, app]
  have hinstance : (app "instance" [.atom "?R", .atom "B"]).Plain := by simp +decide [Plain, app]
  refine .conj fun x hx => ?_
  rcases List.mem_cons.mp hx with rfl | hx
  · exact .quantified trivial (by decide) (.atomic ⟨rfl, happlied⟩)
  · rw [List.mem_singleton.mp hx]
    exact .quantified trivial (by decide) (.atomic ⟨rfl, hinstance⟩)

theorem models_someOfAll {holds : List String → Prop} (hsome : ∃ d, holds [d, "a"])
    (hall : ∀ d, holds ["instance", d, "B"]) : (Reading.ofNames holds).Models someOfAll := by
  intro v
  rw [someOfAll, truth_conj]
  refine List.forall_mem_cons.mpr ⟨?_, List.forall_mem_singleton.mpr ?_⟩
  · obtain ⟨d, hd⟩ := hsome
    refine (truth_any _ _).mpr ⟨Function.update v "?R" d, fun b hb => ?_, ?_⟩
    · exact Function.update_of_ne (by simpa using hb) _ _
    · rw [truth_app _ (by decide)]
      simpa +decide [Reading.Says, app, Reading.denote, Reading.ofNames] using hd
  · refine (truth_all _ _).mpr fun w _ => ?_
    rw [truth_app _ (by decide)]
    simpa +decide [Reading.Says, app, Reading.denote, Reading.ofNames] using hall (w "?R")

/-- the first formula that binds the name need not hold of what the second one asks for -/
theorem not_instancesFollow_someOfAll :
    ¬ InstancesFollow [app "instance" [.atom "p", .atom "B"]] someOfAll ⟨0⟩ := by
  refine @not_instancesFollow_of _ (conj [app "p" [.atom "a"], quantified Quantifier.all.name ["?R"]
    (app "instance" [.atom "?R", .atom "B"])]) _ _ (fun xs => xs ≠ ["p", "a"]) (by cbv) ?_ ?_ ?_
  · exact (@Reading.models_app_ofNames _ _ ["p", "B"] (by decide) (by decide)).mpr (by decide)
  · exact models_someOfAll ⟨"b", by decide⟩ (by simp)
  · intro h
    obtain ⟨hp, _⟩ := List.forall_mem_cons.mp ((truth_conj _).mp (h fun _ => ""))
    rw [truth_app _ (by decide)] at hp
    exact hp (by simp +decide [app, Reading.denote, Reading.ofNames])

/-- an operator that becomes a head makes the application a formula of another kind -/
theorem not_instancesFollow_operator :
    ¬ InstancesFollow [app "instance" [.atom "and", .atom "B"]] (membership "?R") ⟨0⟩ := by
  refine @not_instancesFollow_of _ (.atom "a") _ _ (fun xs => xs ≠ []) (by cbv) ?_ ?_ ?_
  · exact (@Reading.models_app_ofNames _ _ ["and", "B"] (by decide) (by decide)).mpr (by simp)
  · exact models_membership (by decide) (by decide) (by simp)
  · intro h
    exact (truth_atom (by decide) (by decide)).mp (h fun _ => "") rfl

/-- of what follows the class in a told statement nothing is asked -/
theorem not_instancesFollow_longer :
    ¬ InstancesFollow [app "instance" [.atom "p", .atom "B", .atom "x"]] (membership "?R") ⟨0⟩ := by
  refine @not_instancesFollow_of _ (app "p" [.atom "a"]) _ _
    (fun xs => xs ≠ ["instance", "p", "B"] ∧ xs ≠ ["p", "a"]) (by cbv) ?_ ?_ ?_
  · exact (@Reading.models_app_ofNames _ _ ["p", "B", "x"] (by decide) (by decide)).mpr
      (by simp)
  · refine models_membership (by decide) (by decide) fun d h => ?_
    refine ⟨by simp, fun he => h.1 ?_⟩
    rw [(List.cons.inj he).1]
  · intro h
    exact ((@Reading.models_app_ofNames _ _ ["a"] (by decide) (by decide)).mp h).2 rfl

/-- a formula need not have its instances for consequences -/
theorem not_instancesFollow :
    (someOfAll.IsFormula IsApplication .full ∧
      ¬ InstancesFollow [app "instance" [.atom "p", .atom "B"]] someOfAll ⟨0⟩) ∧
    (membership "?R").IsFormula IsApplication .full ∧
    ¬ InstancesFollow [app "instance" [.atom "and", .atom "B"]] (membership "?R") ⟨0⟩ ∧
    ¬ InstancesFollow [app "instance" [.atom "p", .atom "B", .atom "x"]] (membership "?R") ⟨0⟩ :=
  ⟨⟨isFormula_someOfAll, not_instancesFollow_someOfAll⟩, isFormula_membership (by decide),
    not_instancesFollow_operator, not_instancesFollow_longer⟩

end Term

end OntologyPrep
