import OntologyPrep.Proofs.Predicate.Vocabulary
import OntologyPrep.Proofs.Preparation.Account
import OntologyPrep.Proofs.Sort.Remembered
import OntologyPrep.Proofs.Sort.Restriction

/-!
# The vocabulary of what is passed on

A `Vocabulary` is a set of names that a preparation does not leave: it has the names that facts and
guards are made with, the variables that rows are written out with, everything told, and the classes
that declared types stand for.  Every step of a preparation keeps to it, so that all formulas passed on
are over the names if the given ones are, once foreign characters are replaced
(`Formula.over_prepareAll`).
-/

namespace OntologyPrep

/-- the class that a type stands for is over the names -/
def TypeOver (names : String → Prop) (type : String) : Prop :=
  (Term.atom ((subclassBase? type).getD type)).Over names

/-- names that a preparation does not leave -/
structure Vocabulary (names : String → Prop) (kb : KnowledgeBase) : Prop where
  told : kb.Over names
  row : ∀ row (s : Supply), names row → Name.isRowVariable row = true →
    names (rowStem row ++ s.index)
  instanceName : names "instance"
  subclassName : names "subclass"
  setOrClass : names KnowledgeBase.setOrClass
  type : ∀ relation position type, kb.argType? relation position = some type → TypeOver names type

variable {names : String → Prop} {kb : KnowledgeBase}

/-! ## rows -/

theorem Supply.names_drawMany {stem : String} (h : ∀ s : Supply, names (stem ++ s.index)) (n : Nat)
    (s : Supply) : ∀ a ∈ (drawMany stem n s).1, names a := by
  induction n generalizing s with
  | zero => exact fun a ha => absurd ha List.not_mem_nil
  | succ n ih =>
    intro a ha
    rcases List.mem_cons.mp ha with rfl | ha
    · exact h s.next
    · exact ih _ a ha

namespace Term

theorem over_atom {a : String} (h : names a) : (atom a).Over names := by
  intro b hb
  rw [atoms_atom, List.mem_singleton] at hb
  exact .inl (hb ▸ h)

theorem over_rowSequences (hv : Vocabulary names kb) {row : String} (hrow : names row)
    (hvar : Name.isRowVariable row = true) {range : RowRange} {count : Nat} {s : Supply}
    {sequence : List Term} (h : sequence ∈ (rowSequences row range count s).1) :
    ∀ x ∈ sequence, x.Over names := by
  have hdrawn : ∀ x ∈ (Supply.drawMany (rowStem row) (count - 1) s).1.map atom, x.Over names :=
    List.forall_mem_map.mpr fun a ha =>
      over_atom (Supply.names_drawMany (fun s => hv.row row s hrow hvar) _ _ a ha)
  unfold rowSequences at h
  simp only [State.bind_apply, State.pure_apply] at h
  split at h
  · obtain ⟨n, _, rfl⟩ := List.mem_map.mp h
    exact fun x hx => hdrawn x (List.mem_of_mem_take hx)
  · rw [List.mem_singleton] at h
    rwa [h]

theorem over_splice {t : Term} (ht : t.Over names) (row : String) {sequence : List Term}
    (hsequence : ∀ x ∈ sequence, x.Over names) : (t.splice row sequence).Over names := by
  match t with
  | .atom a =>
    rw [splice]
    exact ht
  | .list items =>
    rw [splice_list]
    refine over_list.mpr fun y hy => ?_
    obtain ⟨x, hx, hy⟩ := List.mem_flatMap.mp hy
    split at hy
    · exact hsequence y hy
    · rw [List.mem_singleton] at hy
      rw [hy]
      exact over_splice (over_list.mp ht x hx) row hsequence

theorem over_expandRow (hv : Vocabulary names kb) {t : Term} (ht : t.Over names) {row : String}
    (hrow : names row) (hvar : Name.isRowVariable row = true) (s : Supply) :
    ∀ u ∈ (t.expandRow kb row s).1, u.Over names := by
  unfold expandRow
  simp only [State.bind_apply, State.pure_apply]
  exact List.forall_mem_map.mpr fun sequence hsequence =>
    over_splice ht row (over_rowSequences hv hrow hvar hsequence)

theorem over_expandRows (hv : Vocabulary names kb) {budget : Option Nat} {t : Term}
    (ht : t.Over names) (s : Supply) : ∀ u ∈ (t.expandRows kb budget s).1.1, u.Over names := by
  unfold expandRows
  split
  · exact List.forall_mem_singleton.mpr ht
  · have hrows : ∀ row ∈ t.rowVariables, names row ∧ Name.isRowVariable row = true := by
      intro row hrow
      obtain ⟨hatom, hvar⟩ := mem_rowVariables.mp hrow
      exact ⟨ht.of_isVariable hatom (Name.isVariable_of_isRowVariable hvar), hvar⟩
    have hstep : ∀ (e : RowExpansion), ∀ row ∈ t.rowVariables, ∀ s,
        (∀ u, e.Holds u → u.Over names) →
        ∀ u, (RowExpansion.expandRow kb budget e row s).1.Holds u → u.Over names := by
      intro e row hrow s he u hu
      obtain ⟨hname, hvar⟩ := hrows row hrow
      rcases RowExpansion.holds_expandRow hu with hu | ⟨w, hw, hreplaces⟩
      · exact he u hu
      · rcases hreplaces with ⟨-, rfl⟩ | ⟨-, s', hmem⟩
        · exact he u (.inr hw)
        · exact over_expandRow hv (he w (.inr hw)) hname hvar s' u hmem
    have hstart : ∀ u, RowExpansion.Holds ⟨[], [t], false⟩ u → u.Over names := by
      rintro u (hu | hu)
      · cases hu
      · rw [List.mem_singleton.mp hu]
        exact ht
    have hend := State.foldlM_keeps hstep s hstart
    intro u hu
    rcases Distinct.mem_addAll.mp hu with hu | hu
    · exact hend u (.inl hu)
    · exact hend u (.inr hu)

end Term

/-! ## rounds -/

namespace Candidates

variable {settings : Settings} {P : Term → Prop}

/-- what instantiating and writing rows out keep holds of all candidates in the end -/
theorem forall_mem_rounds
    (hinstances : ∀ t s ts, P t → (outcome kb settings t s).1 = .instantiated ts → ∀ u ∈ ts, P u)
    (hrows : ∀ t budget s, P t → ∀ u ∈ (t.expandRows kb budget s).1.1, P u)
    {n : Nat} {live : List Term} {problems : List Problem} {s : Supply} (hlive : ∀ t ∈ live, P t) :
    ∀ t ∈ (rounds kb settings n live problems s).1.1, P t := by
  have hround : ∀ (live : List Term) (s : Supply), (∀ t ∈ live, P t) →
      ∀ t ∈ (round kb settings live s).1.terms, P t := by
    intro live s hlive
    have hinstantiated : ∀ t ∈ (instantiateEach kb settings live empty s).1.terms, P t := by
      refine instantiateEach_keeps (I := fun c => ∀ t ∈ c.terms, P t) (fun _ hc => hc)
        (fun t ht c s _ hc u hu => ?_) (fun t ht => absurd ht List.not_mem_nil) s
      rcases mem_addOutcome hu with hu | ⟨-, rfl⟩ | ⟨us, ho, hu⟩
      · exact hc u hu
      · exact hlive u ht
      · exact hinstances t s us (hlive t ht) ho u hu
    rw [round_eq]
    refine expandEach_keeps (I := fun c => ∀ t ∈ c.terms, P t) (fun _ hc => hc)
      (fun t ht c s _ hc u hu => ?_) (fun t ht => absurd ht List.not_mem_nil) _
    rcases Distinct.mem_addAll.mp hu with hu | hu
    · exact hc u hu
    · exact hrows t _ s (hinstantiated t ht) u hu
  exact rounds_keeps (I := fun live (_ : List Problem) => ∀ t ∈ live, P t)
    (fun live _ s h _ => hround live s h) (fun live _ s h _ => hround live s h) hlive s

end Candidates

theorem Term.over_found (hv : Vocabulary names kb) {settings : Settings} {t : Term}
    (ht : (t.mapAtoms settings.toAscii).Over names) (σ : Session) :
    ∀ u ∈ (t.found kb settings σ).1, u.Over names := by
  refine Candidates.forall_mem_rounds (fun t s ts ht hts => ?_) (fun t budget s ht => ?_)
    (List.forall_mem_singleton.mpr ht)
  · unfold Candidates.outcome at hts
    split at hts
    · cases hts
    · exact over_of_instantiated hv.told ht hts
  · exact over_expandRows hv ht s

/-! ## facts -/

namespace Term

theorem over_sortalFact (hv : Vocabulary names kb) {cls : String} (h : (atom cls).Over names) :
    (sortalFact cls).Over names := by
  refine over_list.mpr (List.forall_mem_cons.mpr ⟨over_atom hv.instanceName, ?_⟩)
  exact List.forall_mem_cons.mpr ⟨h, List.forall_mem_singleton.mpr (over_atom hv.setOrClass)⟩

theorem mem_items_of_mem_classArguments {t x : Term} (h : x ∈ t.classArguments) : x ∈ t.items := by
  unfold classArguments at h
  split at h
  · rw [List.mem_singleton.mp h]
    simp
  · rcases List.mem_cons.mp h with rfl | h
    · simp
    · rw [List.mem_singleton.mp h]
      simp
  · cases h

theorem over_of_mem_classConstants {ts : List Term} (hts : ∀ t ∈ ts, t.Over names) {cls : String}
    (h : cls ∈ classConstants ts) : (atom cls).Over names := by
  rcases Distinct.mem_addAll.mp h with h | h
  · cases h
  · obtain ⟨x, hx, hname⟩ := List.mem_filterMap.mp (List.mem_filter.mp h).1
    obtain ⟨u, hu, hx⟩ := List.mem_flatMap.mp hx
    obtain ⟨t, ht, hu⟩ := List.mem_flatMap.mp hu
    obtain rfl := name?_eq_some_iff.mp hname
    have hitem := mem_items_of_mem_classArguments hx
    exact (hts t ht).atom (mem_atoms_of_mem_subterms hu (mem_atoms_of_mem_items hitem (by simp)))

end Term

theorem KnowledgeBase.over_missingAmong (hv : Vocabulary names kb) (live : List Term)
    {classes : List String} (hclasses : ∀ cls ∈ classes, (Term.atom cls).Over names)
    {cache : TypeCache} (hcache : cache.Holds (TypeOver names)) :
    (∀ fact ∈ (kb.missingAmong live classes cache).1, fact.Over names) ∧
      (kb.missingAmong live classes cache).2.Holds (TypeOver names) := by
  induction classes generalizing cache with
  | nil => exact ⟨fun fact hfact => absurd hfact List.not_mem_nil, hcache⟩
  | cons cls classes ih =>
    obtain ⟨hcls, hrest⟩ := List.forall_mem_cons.mp hclasses
    rw [missingAmong]
    split
    · exact ih hrest hcache
    · have hinsert : (cache.insert (TypeCache.sortalKey cls) (some setOrClass)).Holds
          (TypeOver names) := by
        refine hcache.insert _ fun type htype => ?_
        cases htype
        exact Term.over_atom hv.setOrClass
      obtain ⟨hfacts, hlast⟩ := ih hrest hinsert
      exact ⟨List.forall_mem_cons.mpr ⟨Term.over_sortalFact hv hcls, hfacts⟩, hlast⟩

/-! ## guards -/

/-- a variable and classes over the names -/
structure Frame.Over (names : String → Prop) (f : Frame) : Prop where
  name : (Term.atom f.name).Over names
  instances : ∀ c ∈ f.constraints.instances, (Term.atom c).Over names
  subclasses : ∀ c ∈ f.constraints.subclasses, (Term.atom c).Over names

theorem Frame.Over.add {f : Frame} (hf : f.Over names) {type : String} (htype : TypeOver names type) :
    Frame.Over names { f with constraints := f.constraints.add type } := by
  obtain ⟨hname, hinstances, hsubclasses⟩ := hf
  rw [TypeOver] at htype
  cases hbase : subclassBase? type with
  | some base =>
    rw [hbase] at htype
    have hadd : f.constraints.add type =
        { f.constraints with subclasses := Distinct.add f.constraints.subclasses base } := by
      rw [Constraints.add, hbase]
    refine ⟨hname, by rw [hadd]; exact hinstances, fun c hc => ?_⟩
    rw [hadd] at hc
    rcases Distinct.mem_add.mp hc with hc | rfl
    · exact hsubclasses c hc
    · exact htype
  | none =>
    rw [hbase] at htype
    have hadd : f.constraints.add type =
        { f.constraints with instances := Distinct.add f.constraints.instances type } := by
      rw [Constraints.add, hbase]
    refine ⟨hname, fun c hc => ?_, by rw [hadd]; exact hsubclasses⟩
    rw [hadd] at hc
    rcases Distinct.mem_add.mp hc with hc | rfl
    · exact hinstances c hc
    · exact htype

theorem Shelf.over_constrain {s s' : Shelf} (hs : ∀ f ∈ s, f.Over names) {name type : String}
    (htype : TypeOver names type) (h : s.constrain name type = some s') : ∀ f ∈ s', f.Over names := by
  induction s generalizing s' with
  | nil => cases h
  | cons f s ih =>
    obtain ⟨hf, hs⟩ := List.forall_mem_cons.mp hs
    rw [constrain] at h
    split at h
    · cases h
      exact List.forall_mem_cons.mpr ⟨hf.add htype, hs⟩
    · obtain ⟨s'', hs'', rfl⟩ := Option.map_eq_some_iff.mp h
      exact List.forall_mem_cons.mpr ⟨hf, ih hs hs''⟩

/-- the shelf and the cache are over the names -/
structure Restricting.Over (names : String → Prop) (r : Restricting) : Prop where
  shelf : ∀ f ∈ r.shelf, f.Over names
  cache : r.cache.Holds (TypeOver names)

namespace Restricting

variable {r : Restricting}

theorem over_enter (hr : r.Over names) {bound : List String}
    (hbound : ∀ n ∈ bound, (Term.atom n).Over names) (q : Quantifier) :
    (enter bound q r).2.Over names := by
  refine ⟨fun f hf => ?_, hr.cache⟩
  rcases List.mem_append.mp hf with hf | hf
  · obtain ⟨n, hn, rfl⟩ := List.mem_map.mp (List.mem_reverse.mp hf)
    exact ⟨hbound n hn, fun c hc => absurd hc List.not_mem_nil, fun c hc => absurd hc List.not_mem_nil⟩
  · exact hr.shelf f hf

theorem over_leave (hr : r.Over names) (count : Nat) :
    (∀ f ∈ (leave count r).1, f.Over names) ∧ (leave count r).2.Over names :=
  ⟨fun f hf => hr.shelf f (List.mem_of_mem_take (List.mem_reverse.mp hf)),
    fun f hf => hr.shelf f (List.mem_of_mem_drop hf), hr.cache⟩

theorem over_note (hv : Vocabulary names kb) (p : Term.Place) (hr : r.Over names) :
    (note kb p r).2.Over names := by
  obtain ⟨htype, hcache⟩ := KnowledgeBase.holds_typeOf hv.type hr.cache p.relation p.position
  unfold note
  simp only
  split
  · next type hfound =>
    refine ⟨?_, hcache⟩
    cases hconstrain : r.shelf.constrain p.name type with
    | none => exact hr.shelf
    | some s => exact Shelf.over_constrain hr.shelf (htype type hfound) hconstrain
  · exact ⟨hr.shelf, hcache⟩

end Restricting

theorem Frame.over_guards (hv : Vocabulary names kb) {f : Frame} (hf : f.Over names) :
    ∀ g ∈ f.guards kb, g.Over names := by
  have hguard : ∀ relation c, names relation → (Term.atom c).Over names →
      (Term.app relation [.atom f.name, .atom c]).Over names := by
    intro relation c hrelation hc
    refine Term.over_list.mpr (List.forall_mem_cons.mpr ⟨Term.over_atom hrelation, ?_⟩)
    exact List.forall_mem_cons.mpr ⟨hf.name, List.forall_mem_singleton.mpr hc⟩
  intro g hg
  rcases List.mem_append.mp hg with hg | hg
  · obtain ⟨c, hc, rfl⟩ := List.mem_map.mp hg
    exact hguard _ c hv.instanceName (hf.instances c (KnowledgeBase.mem_winnow.mp hc).1)
  · obtain ⟨c, hc, rfl⟩ := List.mem_map.mp hg
    exact hguard _ c hv.subclassName (hf.subclasses c (KnowledgeBase.mem_winnow.mp hc).1)

namespace Term

theorem over_guarded {q : Quantifier} {bound : List String} {guards : List Term} {body : Term}
    (hbound : ∀ n ∈ bound, (atom n).Over names) (hguards : ∀ g ∈ guards, g.Over names)
    (hbody : body.Over names) : (guarded q bound guards body).Over names := by
  unfold guarded
  split
  · exact over_quantified hbound hbody
  · exact over_quantified hbound (over_apply_pair (o := .implies) (hguards _ (by simp)) hbody)
  · exact over_quantified hbound (over_apply_pair (o := .implies) (over_apply.mpr hguards) hbody)
  · refine over_quantified hbound (over_apply.mpr (List.forall_mem_append.mpr ⟨hguards, ?_⟩))
    split
    · intro x hx
      cases body with
      | atom a => cases hx
      | list items => exact over_list.mp hbody x (List.mem_of_mem_drop hx)
    · exact List.forall_mem_singleton.mpr hbody

theorem over_restrict (hv : Vocabulary names kb) {t : Term} (ht : t.Over names) {r : Restricting}
    (hr : r.Over names) :
    (t.restrict kb r).1.Over names ∧ (t.restrict kb r).2.Over names := by
  induction t using restrict.induct generalizing r with
  | case1 a =>
    rw [restrict_atom]
    exact ⟨ht, hr⟩
  | case2 items b hb ih =>
    rw [binder?_eq_some_iff.mp hb] at ht ⊢
    obtain ⟨hbound, hbody⟩ := over_binder ht
    obtain ⟨hbody', hr'⟩ := ih hbody (Restricting.over_enter hr hbound b.quantifier)
    obtain ⟨hframes, hleft⟩ := Restricting.over_leave hr' b.names.length
    rw [restrict_binder]
    refine ⟨over_guarded hbound (fun g hg => ?_) hbody', hleft⟩
    obtain ⟨f, hf, hg⟩ := List.mem_flatMap.mp hg
    exact Frame.over_guards hv (hframes f hf) g hg
  | case3 items hb happlied =>
    rw [restrict_application kb r hb happlied]
    exact ⟨ht, State.forM_keeps (fun p _ r hr => Restricting.over_note hv p hr) hr⟩
  | case4 items hb happlied ih =>
    rw [restrict_list kb r hb (eq_false_of_ne_true happlied)]
    obtain ⟨hitems, hlast⟩ := State.mapM_keeps
      (fun x hx r hr => ih x hx (over_list.mp ht x hx) hr) hr
    exact ⟨over_list.mpr hitems, hlast⟩

theorem over_closeUniversally {t : Term} (ht : t.Over names) : t.closeUniversally.Over names := by
  unfold closeUniversally
  split
  · exact ht
  · exact over_quantified (q := .all)
      (fun n hn => ht.atom (mem_atoms_of_mem_freeVariables hn)) ht

theorem over_restrictTypes (hv : Vocabulary names kb) {t : Term} (ht : t.Over names)
    {cache : TypeCache} (hcache : cache.Holds (TypeOver names)) :
    (t.restrictTypes kb cache).1.Over names ∧
      (t.restrictTypes kb cache).2.Holds (TypeOver names) := by
  have hempty : Restricting.Over names ⟨[], cache⟩ :=
    ⟨fun f hf => absurd hf List.not_mem_nil, hcache⟩
  obtain ⟨hresult, hlast⟩ := over_restrict hv (over_closeUniversally ht) hempty
  exact ⟨hresult, hlast.cache⟩

theorem over_tidyBinders {t : Term} (ht : t.Over names) : t.tidyBinders.Over names := by
  induction t using tidyBinders.induct with
  | case1 a =>
    rw [tidyBinders]
    exact ht
  | case2 items b hb ih =>
    rw [binder?_eq_some_iff.mp hb] at ht
    obtain ⟨hbound, hbody⟩ := over_binder ht
    rw [tidyBinders]
    split
    · next b' hb' =>
      obtain rfl := Option.some.inj (hb'.symm.trans hb)
      exact over_quantified hbound (ih hbody)
    · next hn =>
      rw [hb] at hn
      cases hn
  | case3 items hb ih =>
    rw [tidyBinders]
    split
    · next b hb' =>
      rw [hb] at hb'
      cases hb'
    · exact over_list.mpr (List.forall_mem_map.mpr fun x hx => ih x hx (over_list.mp ht x hx))

theorem over_finalForm (hv : Vocabulary names kb) {settings : Settings} {query : Bool} {t : Term}
    (ht : t.Over names) {cache : TypeCache} (hcache : cache.Holds (TypeOver names)) :
    (t.finalForm kb settings query cache).1.Over names ∧
      (t.finalForm kb settings query cache).2.Holds (TypeOver names) := by
  unfold finalForm
  split
  · obtain ⟨hresult, hlast⟩ := over_restrictTypes hv ht hcache
    exact ⟨over_tidyBinders hresult, hlast⟩
  · exact ⟨over_tidyBinders ht, hcache⟩

end Term

/-! ## the preparation -/

namespace Term

variable (settings : Settings) (query : Bool)

theorem over_facts (hv : Vocabulary names kb) {live : List Term} (hlive : ∀ t ∈ live, t.Over names)
    {σ : Session} (hσ : σ.cache.Holds (TypeOver names)) :
    (∀ fact ∈ (facts kb query live σ).1, fact.Over names) ∧
      (facts kb query live σ).2.cache.Holds (TypeOver names) := by
  unfold facts
  split
  · exact ⟨fun fact hfact => absurd hfact List.not_mem_nil, hσ⟩
  · exact KnowledgeBase.over_missingAmong hv live
      (fun cls hcls => over_of_mem_classConstants hlive hcls) hσ

theorem over_finals (hv : Vocabulary names kb) {live : List Term}
    (hlive : ∀ t ∈ live, t.Over names) {σ : Session} (hσ : σ.cache.Holds (TypeOver names)) :
    (∀ u ∈ (finals kb settings query live σ).1, u.Over names) ∧
      (finals kb settings query live σ).2.cache.Holds (TypeOver names) := by
  obtain ⟨hfacts, hcache⟩ := over_facts query hv hlive hσ
  have hcandidates : ∀ c ∈ live ++ (facts kb query live σ).1, c.Over names :=
    List.forall_mem_append.mpr ⟨hlive, hfacts⟩
  have hkeeps : ∀ c ∈ live ++ (facts kb query live σ).1, ∀ τ : Session,
      τ.cache.Holds (TypeOver names) →
      (Session.typing (c.finalForm kb settings query) τ).1.Over names ∧
        (Session.typing (c.finalForm kb settings query) τ).2.cache.Holds (TypeOver names) :=
    fun c hc τ hτ => over_finalForm hv (hcandidates c hc) hτ
  exact State.mapM_keeps hkeeps hcache

theorem over_prepare (hv : Vocabulary names kb) {t : Term}
    (ht : (t.mapAtoms settings.toAscii).Over names) {σ : Session}
    (hσ : σ.cache.Holds (TypeOver names)) :
    (∀ u ∈ (t.prepare kb settings query σ).1.accepted, u.Over names) ∧
      (t.prepare kb settings query σ).2.cache.Holds (TypeOver names) := by
  rw [prepare_eq]
  obtain ⟨hfinals, hlast⟩ := over_finals settings query hv (over_found hv ht σ)
    (σ := { σ with supply := ((t.mapAtoms settings.toAscii).candidates kb settings σ.supply).2 }) hσ
  refine ⟨fun u hu => ?_, hlast⟩
  rw [judge_fst] at hu
  exact hfinals u (List.mem_filter.mp hu).1

end Term

namespace Formula

variable (settings : Settings) (query : Bool)

theorem over_prepare (hv : Vocabulary names kb) {f : Formula}
    (hf : ∀ t, f.term = some t → (t.mapAtoms settings.toAscii).Over names) {σ : Session}
    (hσ : σ.cache.Holds (TypeOver names)) :
    (∀ g ∈ (f.prepare kb settings query σ).1.1, ∃ t, g.text = t.render ∧ g.term = some t ∧
        t.Over names) ∧
      (f.prepare kb settings query σ).2.cache.Holds (TypeOver names) := by
  have htext : (∀ u ∈ (f.prepareText kb settings query σ).1.accepted, u.Over names) ∧
      (f.prepareText kb settings query σ).2.cache.Holds (TypeOver names) := by
    rcases f.prepareText_cases with ⟨t, hbalanced, hterm⟩ | ⟨p, -, hrefused⟩
    · rw [prepareText_of_term hbalanced hterm]
      exact Term.over_prepare settings query hv (hf t hterm) hσ
    · rw [hrefused]
      exact ⟨fun u hu => absurd hu List.not_mem_nil, hσ⟩
  rw [prepare_eq]
  exact ⟨List.forall_mem_map.mpr fun u hu => ⟨u, rfl, rfl, htext.1 u hu⟩, htext.2⟩

/-- all formulas passed on, one formula after another, are over the names -/
theorem over_prepareAll (hv : Vocabulary names kb) {fs : List Formula}
    (hfs : ∀ f ∈ fs, ∀ t, f.term = some t → (t.mapAtoms settings.toAscii).Over names) {σ : Session}
    (hσ : σ.cache.Holds (TypeOver names)) :
    ∀ g ∈ (prepareAll kb settings query fs σ).1.1, ∃ t, g.text = t.render ∧ g.term = some t ∧
      t.Over names := by
  induction fs generalizing σ with
  | nil => exact fun g hg => absurd hg List.not_mem_nil
  | cons f fs ih =>
    obtain ⟨hf, hrest⟩ := List.forall_mem_cons.mp hfs
    obtain ⟨hfirst, hnext⟩ := over_prepare settings query hv hf hσ
    intro g hg
    rcases List.mem_append.mp hg with hg | hg
    · exact hfirst g hg
    · exact ih hrest hnext g hg

end Formula

end OntologyPrep
