import OntologyPrep.Proofs.Meaning.FirstOrder
import OntologyPrep.Proofs.Sort.Restriction

/-!
# The guards of a bound variable

`Term.guardsFor` says, without a shelf and without an order, what the guards of a variable in the scope
of its quantifier are: the most specific ones of the classes that are declared for the free places of
the variable in the scope, where the places of an atomic formula are those of all applications that it
is or has as parts.

The frames of a quantified formula have these guards (`Binder.mem_guards`).
-/

namespace OntologyPrep

/-- a variable guarded with the most specific ones of the classes that some types stand for -/
def KnowledgeBase.guardsOf (kb : KnowledgeBase) (name : String) (types : List String) : List Term :=
  (kb.winnow (types.filter fun type => (subclassBase? type).isNone)).map
      (fun c => .app "instance" [.atom name, .atom c]) ++
    (kb.winnow (types.filterMap subclassBase?)).map
      (fun c => .app "subclass" [.atom name, .atom c])

namespace Constraints

variable {c : Constraints} {types : List String} {cls : String}

theorem mem_instances_add {type : String} : cls ∈ (c.add type).instances ↔
    cls ∈ c.instances ∨ cls = type ∧ subclassBase? type = none := by
  rw [add]
  cases hbase : subclassBase? type with
  | none => simp [Distinct.mem_add]
  | some base => simp

theorem mem_subclasses_add {type : String} : cls ∈ (c.add type).subclasses ↔
    cls ∈ c.subclasses ∨ subclassBase? type = some cls := by
  rw [add]
  cases hbase : subclassBase? type with
  | none => simp
  | some base => simp [Distinct.mem_add, eq_comm]

theorem mem_instances_foldl : cls ∈ (types.foldl add c).instances ↔
    cls ∈ c.instances ∨ cls ∈ types ∧ subclassBase? cls = none := by
  induction types generalizing c with
  | nil => simp
  | cons type types ih =>
    rw [List.foldl_cons, ih, mem_instances_add, List.mem_cons]
    grind

theorem mem_subclasses_foldl : cls ∈ (types.foldl add c).subclasses ↔
    cls ∈ c.subclasses ∨ ∃ type ∈ types, subclassBase? type = some cls := by
  induction types generalizing c with
  | nil => simp
  | cons type types ih =>
    simp only [List.foldl_cons, ih, mem_subclasses_add, List.mem_cons, exists_eq_or_imp, or_assoc]

end Constraints

/-- the guards of a frame are those of the types that it has got -/
theorem Frame.mem_guards_constrainAll {kb : KnowledgeBase} {f : Frame}
    (hf : f.constraints = .empty) {types : List String} {g : Term} :
    g ∈ (f.constrainAll types).guards kb ↔ g ∈ kb.guardsOf f.name types := by
  have hinstances : ∀ c, c ∈ kb.winnow (f.constrainAll types).constraints.instances ↔
      c ∈ kb.winnow (types.filter fun type => (subclassBase? type).isNone) := by
    intro c
    simp [KnowledgeBase.mem_winnow, constrainAll, hf, Constraints.mem_instances_foldl,
      Constraints.empty]
  have hsubclasses : ∀ c, c ∈ kb.winnow (f.constrainAll types).constraints.subclasses ↔
      c ∈ kb.winnow (types.filterMap subclassBase?) := by
    intro c
    simp [KnowledgeBase.mem_winnow, constrainAll, hf, Constraints.mem_subclasses_foldl,
      Constraints.empty]
  simp only [guards, KnowledgeBase.guardsOf, List.mem_append, List.mem_map, hinstances, hsubclasses,
    name_constrainAll]

/-- the order of places and how often they are listed do not matter -/
theorem KnowledgeBase.mem_guardsOf_congr {kb : KnowledgeBase} {name : String}
    {types types' : List String} (h : ∀ type, type ∈ types ↔ type ∈ types') {g : Term} :
    g ∈ kb.guardsOf name types ↔ g ∈ kb.guardsOf name types' := by
  have hinstances : ∀ c, c ∈ kb.winnow (types.filter fun type => (subclassBase? type).isNone) ↔
      c ∈ kb.winnow (types'.filter fun type => (subclassBase? type).isNone) := by
    intro c
    simp [mem_winnow, h]
  have hsubclasses : ∀ c, c ∈ kb.winnow (types.filterMap subclassBase?) ↔
      c ∈ kb.winnow (types'.filterMap subclassBase?) := by
    intro c
    simp [mem_winnow, h]
  simp only [guardsOf, List.mem_append, List.mem_map, hinstances, hsubclasses]

/-- marked frames have the guards of their variables, where several frames of one variable count as
one -/
theorem Shelf.mem_guards_foldl_mark {kb : KnowledgeBase} {type : Term.Place → Option String}
    {s : Shelf} (hs : ∀ f ∈ s, f.constraints = .empty) {ps : List Term.Place} {g : Term} :
    (∃ f ∈ ps.foldl (mark type) s, g ∈ f.guards kb) ↔ ∃ n ∈ s.map Frame.name,
      g ∈ kb.guardsOf n ((ps.filter fun p => p.name = n).filterMap type) := by
  induction s generalizing ps with
  | nil => simp [foldl_mark_nil]
  | cons f s ih =>
    obtain ⟨hf, hs⟩ := List.forall_mem_cons.mp hs
    simp only [foldl_mark_cons, List.map_cons, List.mem_cons, exists_eq_or_imp, ih hs,
      Frame.mem_guards_constrainAll hf]
    -- a frame further down of the same variable has got nothing
    have hfilter : ∀ n, n ≠ f.name → (ps.filter fun p => p.name ≠ f.name).filter
        (fun p => p.name = n) = ps.filter fun p => p.name = n := by
      intro n hn
      rw [List.filter_filter]
      refine List.filter_congr fun p _ => ?_
      grind
    have hnone : (ps.filter fun p => p.name ≠ f.name).filter (fun p => p.name = f.name) = [] := by
      simp
    constructor
    · rintro (hg | ⟨n, hn, hg⟩)
      · exact .inl hg
      · by_cases he : n = f.name
        · rw [he, hnone] at hg
          cases hg
        · rw [hfilter n he] at hg
          exact .inr ⟨n, hn, hg⟩
    · rintro (hg | ⟨n, hn, hg⟩)
      · exact .inl hg
      · by_cases he : n = f.name
        · exact .inl (he ▸ hg)
        · refine .inr ⟨n, hn, ?_⟩
          rwa [hfilter n he]

/-! ## the places in an atomic formula -/

namespace Term

/-- the place that an argument with its position is, if it is a variable -/
def placeAt? (relation : String) (arg : Term × Nat) : Option Place :=
  (arg.1.name?.filter Name.isVariable).map fun name => ⟨name, relation, arg.2⟩

/-- the arguments of an application that are variables, counted from 1 -/
def ownPlaces (t : Term) : List Place :=
  match t.head? with
  | some relation => (t.args.zipIdx 1).filterMap (placeAt? relation)
  | none => []

/-- the arguments that are variables, of all applications that the term is or has as parts -/
def allPlaces (t : Term) : List Place := t.subterms.flatMap ownPlaces

/-- the types that are declared for the free places of a variable -/
def declaredFor (kb : KnowledgeBase) (cache : TypeCache) (name : String) (t : Term) : List String :=
  ((t.freePlaces allPlaces).filter fun p => p.name = name).filterMap (Place.type kb cache)

/-- the guards of a variable that is bound with the term as its scope -/
def guardsFor (kb : KnowledgeBase) (cache : TypeCache) (name : String) (t : Term) : List Term :=
  kb.guardsOf name (t.declaredFor kb cache name)

theorem allPlaces_atom (a : String) : (atom a).allPlaces = [] := by
  rw [allPlaces, subterms_atom]
  rfl

theorem allPlaces_list (xs : List Term) :
    (list xs).allPlaces = (list xs).ownPlaces ++ xs.flatMap allPlaces := by
  rw [allPlaces, subterms_list, List.flatMap_cons, List.flatMap_assoc]
  rfl

theorem mem_placesFrom {relation : String} {args : List Term} {position : Nat} {p : Place} :
    p ∈ placesFrom relation position args ↔
      p ∈ (args.zipIdx position).filterMap (placeAt? relation) ∨ ∃ x ∈ args, p ∈ x.places := by
  induction args generalizing position with
  | nil => simp [placesFrom]
  | cons x args ih =>
    simp only [List.zipIdx_cons, List.mem_cons, exists_eq_or_imp]
    cases x with
    | atom a =>
      rw [placesFrom, List.mem_append, ih, places]
      · cases ha : Name.isVariable a with
        | true =>
          rw [List.filterMap_cons_some (b := ⟨a, relation, position⟩) (by simp [placeAt?, ha])]
          simp [or_assoc]
        | false =>
          rw [List.filterMap_cons_none (by simp [placeAt?, ha])]
          simp
      · exact nofun
    | list items =>
      rw [placesFrom, List.mem_append, ih, List.filterMap_cons_none (by simp [placeAt?])]
      exact or_left_comm

/-- the places that restricting finds in a term -/
theorem mem_places {t : Term} (ht : t.IsIndividual) {p : Place} :
    p ∈ t.places ↔ p ∈ t.allPlaces := by
  induction ht with
  | var _ | const _ => rw [allPlaces_atom, places]; exact nofun
  | @app f args _ _ ih =>
    have hparts : (∃ x ∈ args, p ∈ x.places) ↔ p ∈ args.flatMap allPlaces := by
      rw [List.mem_flatMap]
      exact exists_congr fun x => and_congr_right fun hx => ih x hx
    rw [app, places, mem_placesFrom, hparts, allPlaces_list, List.flatMap_cons, allPlaces_atom,
      List.nil_append, List.mem_append]
    rfl

/-! ## the free places of a formula -/

/-- the free places that restricting finds in a formula -/
theorem mem_freePlaces {f : Fragment} {t : Term} (ht : t.IsFormula IsAtomicFormula f) {p : Place} :
    p ∈ t.freePlaces places ↔ p ∈ t.freePlaces allPlaces := by
  refine ht.connectiveInduction
    (motive := fun t => p ∈ t.freePlaces places ↔ p ∈ t.freePlaces allPlaces)
    (fun t ht => ?_) (fun o args ho ih => ?_) (fun q names body _ ih => ?_)
  · cases ht with
    | const _ => rw [freePlaces_atom, freePlaces_atom]
    | @app f args hf hargs =>
      have hb := binder?_app_eq_none args hf.not_quantifier
      have hhead : ((app f args).head?.any fun h => !Name.isOperator h) = true := by
        simp [app, hf.2]
      rw [app, freePlaces_application places hb hhead, freePlaces_application allPlaces hb hhead,
        ← app]
      exact mem_places (.app hf hargs)
  · rw [freePlaces_apply places ho, freePlaces_apply allPlaces ho, List.mem_flatMap,
      List.mem_flatMap]
    exact exists_congr fun x => and_congr_right fun hx => ih x hx
  · rw [freePlaces_quantified, freePlaces_quantified, List.mem_filter, List.mem_filter, ih]

end Term

/-- the guards of a quantified formula, for any body -/
theorem Binder.mem_guards_frames {kb : KnowledgeBase} {type : Term.Place → Option String} {b : Binder}
    {g : Term} : g ∈ ((b.frames type).flatMap fun f => f.guards kb) ↔ ∃ n ∈ b.names,
      g ∈ kb.guardsOf n (((b.body.freePlaces Term.places).filter fun p => p.name = n).filterMap type) := by
  have hempty : ∀ f ∈ Shelf.push [] b.names b.quantifier, f.constraints = .empty := by
    intro f hf
    rw [Shelf.push, List.append_nil, List.mem_reverse] at hf
    obtain ⟨n, _, rfl⟩ := List.mem_map.mp hf
    rfl
  rw [List.mem_flatMap, frames]
  simp only [List.mem_reverse]
  rw [Shelf.mem_guards_foldl_mark hempty, Shelf.map_name_push]
  simp only [List.mem_reverse]

/-- the frames of a quantified formula have the guards of its variables -/
theorem Binder.mem_guards {kb : KnowledgeBase} {cache : TypeCache} {b : Binder} {f : Fragment}
    (hbody : b.body.IsFormula Term.IsAtomicFormula f) {g : Term} :
    g ∈ ((b.frames (Term.Place.type kb cache)).flatMap fun f => f.guards kb) ↔
      ∃ n ∈ b.names, g ∈ b.body.guardsFor kb cache n := by
  rw [mem_guards_frames]
  refine exists_congr fun n => and_congr_right fun _ => KnowledgeBase.mem_guardsOf_congr fun type => ?_
  simp only [Term.declaredFor, List.mem_filterMap, List.mem_filter, Term.mem_freePlaces hbody]

end OntologyPrep
