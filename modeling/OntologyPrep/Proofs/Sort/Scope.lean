import OntologyPrep.Proofs.Sort.Guards

/-!
# The scope that a guard comes from

`Term.openPlaces` are the arguments in a term whose variable is not bound in the term, so that for the
body of a quantified formula they are the ones that the quantifier binds.  `Binder.guards` are the guards
that a quantified formula is put behind (`Binder.restrictTypes_toTerm`).

Every guard of a quantified formula is the guard for the declared type of an argument that is free in
the body if the quantified formulas inside of applications are not looked at
(`Binder.exists_of_mem_guards`).  It is an open one, if no quantified formula inside of an application
binds the variable (`Binder.guardedInScope`); without that condition the guard may come from the scope
of another quantifier (`Binder.not_guardedInScope`).
-/

namespace OntologyPrep

namespace Term

/-- what a variable must be to have a type -/
def guard (name type : String) : Term :=
  match subclassBase? type with
  | some base => app "subclass" [.atom name, .atom base]
  | none => app "instance" [.atom name, .atom type]

/-- the arguments that are variables, but for those that a quantified formula in the term binds -/
def openPlaces : Term → List Place
  | .atom _ => []
  | .list items => ((list items).ownPlaces ++ items.flatMap openPlaces).filter fun p =>
      p.name ∉ (list items).boundNames

/-- no quantified formula inside of an application in the term binds the variable -/
def OpenTo (name : String) (t : Term) : Prop :=
  ∀ s ∈ t.subterms, (s.head?.any fun h => !Name.isOperator h) = true →
    ∀ u ∈ s.subterms, name ∉ u.boundNames

/-! ## arguments that are found and open arguments -/

theorem mem_openPlaces_list {items : List Term} {p : Place} : p ∈ (list items).openPlaces ↔
    (p ∈ (list items).ownPlaces ∨ ∃ x ∈ items, p ∈ x.openPlaces) ∧
      p.name ∉ (list items).boundNames := by
  rw [openPlaces, List.mem_filter, List.mem_append, List.mem_flatMap, decide_eq_true_iff]

/-- an argument of a part of a term is open, if no part of the term binds its variable -/
theorem mem_openPlaces_of_mem_allPlaces {t : Term} {p : Place} (hp : p ∈ t.allPlaces)
    (ht : ∀ s ∈ t.subterms, p.name ∉ s.boundNames) : p ∈ t.openPlaces := by
  match t with
  | .atom a =>
    rw [allPlaces_atom] at hp
    cases hp
  | .list items =>
    rw [allPlaces_list, List.mem_append, List.mem_flatMap] at hp
    rw [mem_openPlaces_list]
    refine ⟨hp.imp_right ?_, ht _ (self_mem_subterms _)⟩
    rintro ⟨x, hx, hpx⟩
    refine ⟨x, hx, mem_openPlaces_of_mem_allPlaces hpx fun s hs => ht s ?_⟩
    rw [subterms_list]
    exact List.mem_cons_of_mem _ (List.mem_flatMap.mpr ⟨x, hx, hs⟩)

theorem exists_of_mem_places {t : Term} {p : Place} (hp : p ∈ t.places) :
    ∃ relation args, t = .list (.atom relation :: args) := by
  unfold places at hp
  split at hp
  · exact ⟨_, _, rfl⟩
  · cases hp

/-- the arguments that are found in a term are arguments of its parts -/
theorem mem_allPlaces_of_mem_places {t : Term} {p : Place} (hp : p ∈ t.places) :
    p ∈ t.allPlaces := by
  obtain ⟨relation, args, ht⟩ := exists_of_mem_places hp
  rw [ht, places, mem_placesFrom] at hp
  rw [ht, allPlaces_list, List.mem_append, List.mem_flatMap]
  refine hp.imp id ?_
  rintro ⟨x, hx, hpx⟩
  have hitem : x ∈ t.items := ht ▸ List.mem_cons_of_mem _ hx
  exact ⟨x, List.mem_cons_of_mem _ hx, mem_allPlaces_of_mem_places hpx⟩
termination_by sizeOf t
decreasing_by exact sizeOf_lt_of_mem_items hitem

theorem OpenTo.of_mem {name : String} {items : List Term} (h : (list items).OpenTo name) {x : Term}
    (hx : x ∈ items) : x.OpenTo name := by
  intro s hs
  refine h s ?_
  rw [subterms_list]
  exact List.mem_cons_of_mem _ (List.mem_flatMap.mpr ⟨x, hx, hs⟩)

/-- a free argument is open, if no quantified formula inside of an application binds its variable -/
theorem mem_openPlaces_of_mem_freePlaces {t : Term} {p : Place} (hp : p ∈ t.freePlaces places)
    (ht : t.OpenTo p.name) : p ∈ t.openPlaces := by
  induction t using binderInduction with
  | atom a =>
    rw [freePlaces_atom] at hp
    cases hp
  | binder b ih =>
    rw [freePlaces_binder, List.mem_filter, decide_eq_true_iff] at hp
    obtain ⟨hp, hname⟩ := hp
    have hbody : b.body ∈ [.atom b.quantifier.name, b.entries, b.body] := by simp
    rw [Binder.toTerm, mem_openPlaces_list, ← Binder.toTerm, boundNames_binder]
    exact ⟨.inr ⟨b.body, hbody, ih hp (ht.of_mem hbody)⟩, hname⟩
  | list items hb ih =>
    cases hhead : (list items).head?.any fun h => !Name.isOperator h with
    | true =>
      rw [freePlaces_application places hb hhead] at hp
      exact mem_openPlaces_of_mem_allPlaces (mem_allPlaces_of_mem_places hp)
        (ht _ (self_mem_subterms _) hhead)
    | false =>
      rw [freePlaces_list places hb hhead, List.mem_flatMap] at hp
      obtain ⟨x, hx, hpx⟩ := hp
      rw [mem_openPlaces_list, boundNames_of_binder?_eq_none hb]
      exact ⟨.inr ⟨x, hx, ih x hx hpx (ht.of_mem hx)⟩, List.not_mem_nil⟩

end Term

/-- the guards for some types are among the guards of these types -/
theorem KnowledgeBase.exists_of_mem_guardsOf {kb : KnowledgeBase} {name : String}
    {types : List String} {g : Term} (h : g ∈ kb.guardsOf name types) :
    ∃ type ∈ types, g = Term.guard name type := by
  rw [guardsOf, List.mem_append, List.mem_map, List.mem_map] at h
  rcases h with ⟨cls, hcls, rfl⟩ | ⟨base, hbase, rfl⟩
  · obtain ⟨hmem, hnone⟩ := List.mem_filter.mp (mem_winnow.mp hcls).1
    exact ⟨cls, hmem, by rw [Term.guard, Option.isNone_iff_eq_none.mp hnone]⟩
  · obtain ⟨type, hmem, hsome⟩ := List.mem_filterMap.mp (mem_winnow.mp hbase).1
    exact ⟨type, hmem, by rw [Term.guard, hsome]⟩

/-! ## the guards of a quantified formula -/

namespace Binder

/-- the guards that the quantified formula gets when types are found with a cache -/
def guards (kb : KnowledgeBase) (cache : TypeCache) (b : Binder) : List Term :=
  (b.frames (Term.Place.type kb cache)).flatMap fun f => f.guards kb

/-- every guard is for the type of an argument whose variable this quantifier binds, and none inside -/
def GuardedInScope (kb : KnowledgeBase) (cache : TypeCache) (b : Binder) : Prop :=
  ∀ g ∈ b.guards kb cache, ∃ p ∈ b.body.openPlaces, p.name ∈ b.names ∧
    ∃ type, p.type kb cache = some type ∧ g = Term.guard p.name type

variable {kb : KnowledgeBase} {cache : TypeCache} {b : Binder}

/-- every guard is for the type of a free argument -/
theorem exists_of_mem_guards {g : Term} (hg : g ∈ b.guards kb cache) :
    ∃ p ∈ b.body.freePlaces Term.places, p.name ∈ b.names ∧
      ∃ type, Term.Place.type kb cache p = some type ∧ g = Term.guard p.name type := by
  obtain ⟨name, hname, hg⟩ := mem_guards_frames.mp hg
  obtain ⟨type, htype, rfl⟩ := KnowledgeBase.exists_of_mem_guardsOf hg
  obtain ⟨p, hp, hpt⟩ := List.mem_filterMap.mp htype
  obtain ⟨hfree, heq⟩ := List.mem_filter.mp hp
  obtain rfl := decide_eq_true_iff.mp heq
  exact ⟨p, hfree, hname, type, hpt, rfl⟩

/-- no guard comes from the scope of another quantifier, if no quantified formula inside of an
application binds one of the variables -/
theorem guardedInScope (h : ∀ name ∈ b.names, b.body.OpenTo name) : b.GuardedInScope kb cache := by
  intro g hg
  obtain ⟨p, hp, hname, hguard⟩ := exists_of_mem_guards hg
  exact ⟨p, Term.mem_openPlaces_of_mem_freePlaces hp (h p.name hname), hname, hguard⟩

/-- a closed quantified formula is put behind its guards -/
theorem restrictTypes_toTerm (h : b.toTerm.freeVariables = []) :
    (b.toTerm.restrictTypes kb cache).1 = Term.guarded b.quantifier b.names (b.guards kb cache)
      (b.body.relativize kb (Term.Place.type kb cache)) := by
  have hclosed : b.toTerm.closeUniversally = b.toTerm := by rw [Term.closeUniversally, h]
  rw [Term.restrictTypes, hclosed, (Term.restrict_eq (r := ⟨[], cache⟩) rfl).1,
    Term.relativize_binder]
  rfl

/-- the name is bound for everything and, inside of an application, for something -/
def boundInside : Binder :=
  ⟨.all, .list [.atom "?X"], .app "now" [.quantified "exists" ["?X"] (.app "p" [.atom "?X"])]⟩

/-- The outer quantifier gets the guard of the argument that the inner one binds.  A quantified formula
inside of an application has no frames, so that its arguments mark the frames outside. -/
theorem not_guardedInScope : ¬ ∀ (told : List Term) (b : Binder), b.toTerm.freeVariables = [] →
    b.GuardedInScope (.tellAll .empty told) .empty := by
  intro h
  have hguard : Term.guard "?X" "Human" ∈ boundInside.guards
      (.tellAll .empty [.app "domain" [.atom "p", .atom "1", .atom "Human"]]) .empty := by
    have h : boundInside.guards
        (.tellAll .empty [.app "domain" [.atom "p", .atom "1", .atom "Human"]]) .empty =
          [Term.guard "?X" "Human"] := by cbv
    rw [h]
    exact List.mem_singleton_self _
  have hclosed : boundInside.toTerm.freeVariables = [] := by cbv
  obtain ⟨p, hp, -⟩ := h _ boundInside hclosed _ hguard
  have hnone : boundInside.body.openPlaces = [] := by cbv
  rw [hnone] at hp
  cases hp

end Binder

end OntologyPrep
