import OntologyPrep.Proofs.Sort.Remembered
import OntologyPrep.Proofs.State
import OntologyPrep.Sort.Restriction

/-!
# Restricting without a shelf

The equations of `Term.restrict` for a shelf and a cache, one for each kind of term.

Restricting marks the shelf with the types of some places, each at the innermost frame of its variable
(`Shelf.mark`).  These are the places of the variables that the formula does not bind itself,
`Term.freePlaces`; all others mark frames that are gone in the end.  So the result does not depend on
the shelf: it is `Term.relativize`, where a quantified formula gets its guards from the free places of
its body (`Term.restrict_eq`).
-/

namespace OntologyPrep

/-- the type of a place, found with a cache -/
def Term.Place.type (kb : KnowledgeBase) (cache : TypeCache) (p : Term.Place) : Option String :=
  kb.typeIn cache p.relation p.position

/-- looking at a type does not change the types that are found -/
theorem Term.Place.type_typeOf (kb : KnowledgeBase) (cache : TypeCache) (relation : String)
    (position : Nat) : type kb (kb.typeOf relation position cache).2 = type kb cache := by
  funext p
  rw [type, type, KnowledgeBase.typeIn_typeOf]

/-! ## marks on a shelf -/

/-- the frame with some types more -/
def Frame.constrainAll (f : Frame) (types : List String) : Frame :=
  { f with constraints := types.foldl Constraints.add f.constraints }

@[simp] theorem Frame.name_constrainAll (f : Frame) (types : List String) :
    (f.constrainAll types).name = f.name := rfl

namespace Shelf

variable (type : Term.Place → Option String)

/-- the type of a place put on the innermost frame of its variable -/
def mark (s : Shelf) (p : Term.Place) : Shelf :=
  match type p with
  | some t => (s.constrain p.name t).getD s
  | none => s

theorem mark_nil (p : Term.Place) : mark type [] p = [] := by
  unfold mark
  cases type p <;> rfl

theorem mark_cons_of_eq {f : Frame} {p : Term.Place} (h : f.name = p.name) (s : Shelf) :
    mark type (f :: s) p = f.constrainAll (type p).toList :: s := by
  unfold mark
  cases type p with
  | none => rfl
  | some t => simp [constrain, h, Frame.constrainAll]

theorem mark_cons_of_ne {f : Frame} {p : Term.Place} (h : f.name ≠ p.name) (s : Shelf) :
    mark type (f :: s) p = f :: mark type s p := by
  unfold mark
  cases type p with
  | none => rfl
  | some t =>
    simp only [constrain, h, if_false]
    cases constrain p.name t s <;> rfl

theorem foldl_mark_nil (ps : List Term.Place) : ps.foldl (mark type) [] = [] := by
  induction ps with
  | nil => rfl
  | cons p ps ih => rw [List.foldl_cons, mark_nil, ih]

/-- the innermost frame gets the places of its variable, the others get all others -/
theorem foldl_mark_cons (ps : List Term.Place) (f : Frame) (s : Shelf) :
    ps.foldl (mark type) (f :: s) =
      f.constrainAll ((ps.filter fun p => p.name = f.name).filterMap type) ::
        (ps.filter fun p => p.name ≠ f.name).foldl (mark type) s := by
  induction ps generalizing f s with
  | nil => rfl
  | cons p ps ih =>
    rw [List.foldl_cons]
    by_cases h : p.name = f.name
    · rw [mark_cons_of_eq type h.symm, ih, List.filter_cons_of_pos (by simpa using h),
        List.filter_cons_of_neg (by simpa using h), Frame.name_constrainAll]
      cases htype : type p with
      | none => rw [List.filterMap_cons_none htype]; rfl
      | some t => rw [List.filterMap_cons_some htype]; rfl
    · rw [mark_cons_of_ne type fun he => h he.symm, ih, List.filter_cons_of_neg (by simpa using h),
        List.filter_cons_of_pos (by simpa using h), List.foldl_cons]

theorem map_name_push (names : List String) (q : Quantifier) :
    (push [] names q).map Frame.name = names.reverse := by
  simp [push, Function.comp_def]

theorem length_foldl_mark (ps : List Term.Place) (s : Shelf) :
    (ps.foldl (mark type) s).length = s.length := by
  induction s generalizing ps with
  | nil => rw [foldl_mark_nil]
  | cons f s ih => rw [foldl_mark_cons, List.length_cons, ih, List.length_cons]

/-- places of variables that have a frame on top leave the frames below alone -/
theorem foldl_mark_append (ps : List Term.Place) (top s : Shelf) :
    ps.foldl (mark type) (top ++ s) = ps.foldl (mark type) top ++
      (ps.filter fun p => p.name ∉ top.map Frame.name).foldl (mark type) s := by
  induction top generalizing ps with
  | nil =>
    rw [foldl_mark_nil, List.nil_append, List.nil_append, List.filter_eq_self.mpr]
    simp
  | cons f top ih =>
    have hfilter : (ps.filter fun p => p.name ≠ f.name).filter
        (fun p => p.name ∉ top.map Frame.name) =
          ps.filter fun p => p.name ∉ (f :: top).map Frame.name := by
      rw [List.filter_filter]
      refine List.filter_congr fun p _ => ?_
      rw [Bool.eq_iff_iff, List.map_cons]
      simp [and_comm]
    rw [List.cons_append, foldl_mark_cons, ih, foldl_mark_cons, List.cons_append, hfilter]

end Shelf

/-! ## the free places of a formula -/

namespace Term

/-- The places that are found in applications outside of one another, but for those of variables that a
quantified formula around the application binds. -/
def freePlaces (found : Term → List Place) : Term → List Place
  | .atom _ => []
  | .list items =>
    match _h : (Term.list items).binder? with
    | some b => (b.body.freePlaces found).filter fun p => p.name ∉ b.names
    | none =>
      if (Term.list items).head?.any fun h => !Name.isOperator h then found (.list items)
      else items.flatMap (freePlaces found)
termination_by t => sizeOf t
decreasing_by
  · exact sizeOf_body_lt ‹_›
  · decreasing_tactic

theorem freePlaces_atom (found : Term → List Place) (a : String) :
    (atom a).freePlaces found = [] := by
  rw [freePlaces]

theorem freePlaces_binder (found : Term → List Place) (b : Binder) :
    b.toTerm.freePlaces found = (b.body.freePlaces found).filter fun p => p.name ∉ b.names := by
  have h := binder?_toTerm b
  rw [Binder.toTerm] at h ⊢
  rw [freePlaces]
  split <;> simp_all

theorem freePlaces_application (found : Term → List Place) {items : List Term}
    (hb : (list items).binder? = none)
    (hhead : ((list items).head?.any fun h => !Name.isOperator h) = true) :
    (list items).freePlaces found = found (.list items) := by
  rw [freePlaces]
  split <;> simp_all

theorem freePlaces_list (found : Term → List Place) {items : List Term}
    (hb : (list items).binder? = none)
    (hhead : ((list items).head?.any fun h => !Name.isOperator h) = false) :
    (list items).freePlaces found = items.flatMap (freePlaces found) := by
  rw [freePlaces]
  split <;> simp_all

/-- no connective is applied as a relation is -/
theorem any_head?_apply (o : Operator) (args : List Term) :
    ((apply o args).head?.any fun h => !Name.isOperator h) = false := by
  simp [apply, app, Name.isOperator]

theorem freePlaces_apply (found : Term → List Place) {o : Operator}
    (ho : Name.isQuantifier o.name = false) (args : List Term) :
    (apply o args).freePlaces found = args.flatMap (freePlaces found) := by
  rw [apply, app, freePlaces_list found (binder?_app_eq_none args ho) (any_head?_apply o args),
    List.flatMap_cons, freePlaces_atom, List.nil_append]

theorem freePlaces_quantified (found : Term → List Place) (q : Quantifier) (names : List String)
    (body : Term) : (quantified q.name names body).freePlaces found =
      (body.freePlaces found).filter fun p => p.name ∉ names := by
  rw [quantified_eq_toTerm, freePlaces_binder, names_quantified]

end Term

/-- the frames of the variables that a quantified formula binds, with the types of the free places of
its body, the outermost one first -/
def Binder.frames (type : Term.Place → Option String) (b : Binder) : List Frame :=
  ((b.body.freePlaces Term.places).foldl (Shelf.mark type) (Shelf.push [] b.names b.quantifier)).reverse

namespace Binder

variable (type : Term.Place → Option String) (b : Binder)

theorem length_frames : (b.frames type).length = b.names.length := by
  rw [frames, List.length_reverse, Shelf.length_foldl_mark, Shelf.length_push]
  rfl

/-- the body marks the frames of the bound variables, and the shelf below with what is left -/
theorem foldl_mark_push (s : Shelf) :
    (b.body.freePlaces Term.places).foldl (Shelf.mark type) (s.push b.names b.quantifier) =
      (b.frames type).reverse ++ ((b.body.freePlaces Term.places).filter fun p =>
        p.name ∉ b.names).foldl (Shelf.mark type) s := by
  have hpush : s.push b.names b.quantifier = Shelf.push [] b.names b.quantifier ++ s := by
    simp [Shelf.push]
  rw [frames, List.reverse_reverse, hpush, Shelf.foldl_mark_append, Shelf.map_name_push]
  simp only [List.mem_reverse]

end Binder

/-! ## restricting -/

namespace Term

/-- the formula with guards for the variables of all quantified formulas outside of atomic ones -/
def relativize (kb : KnowledgeBase) (type : Place → Option String) : Term → Term
  | .atom a => .atom a
  | .list items =>
    match _h : (Term.list items).binder? with
    | some b =>
      guarded b.quantifier b.names ((b.frames type).flatMap fun f => f.guards kb)
        (b.body.relativize kb type)
    | none =>
      if (Term.list items).head?.any fun h => !Name.isOperator h then .list items
      else .list (items.map (relativize kb type))
termination_by t => sizeOf t
decreasing_by
  · exact sizeOf_body_lt ‹_›
  · decreasing_tactic

section

variable (kb : KnowledgeBase) (type : Place → Option String)

theorem relativize_atom (a : String) : (atom a).relativize kb type = .atom a := by
  rw [relativize]

theorem relativize_binder (b : Binder) : b.toTerm.relativize kb type =
    guarded b.quantifier b.names ((b.frames type).flatMap fun f => f.guards kb)
      (b.body.relativize kb type) := by
  have h := binder?_toTerm b
  rw [Binder.toTerm] at h ⊢
  rw [relativize]
  generalize hb : (list [atom b.quantifier.name, b.entries, b.body]).binder? = found at h
  subst h
  rfl

theorem relativize_application {items : List Term} (hb : (list items).binder? = none)
    (hhead : ((list items).head?.any fun h => !Name.isOperator h) = true) :
    (list items).relativize kb type = .list items := by
  rw [relativize]
  split <;> simp_all

theorem relativize_list {items : List Term} (hb : (list items).binder? = none)
    (hhead : ((list items).head?.any fun h => !Name.isOperator h) = false) :
    (list items).relativize kb type = .list (items.map (relativize kb type)) := by
  rw [relativize]
  split <;> simp_all

theorem relativize_apply {o : Operator} (ho : Name.isQuantifier o.name = false) (args : List Term) :
    (apply o args).relativize kb type = apply o (args.map (relativize kb type)) := by
  rw [apply, app, relativize_list kb type (binder?_app_eq_none args ho) (any_head?_apply o args),
    List.map_cons, relativize_atom]
  rfl

theorem relativize_quantified (q : Quantifier) (names : List String) (body : Term) :
    (quantified q.name names body).relativize kb type = guarded q names
      (((Binder.mk q (.list (names.map atom)) body).frames type).flatMap fun f => f.guards kb)
      (body.relativize kb type) := by
  rw [quantified_eq_toTerm, relativize_binder, names_quantified]

end

/-! ## the equations of restricting -/

variable (kb : KnowledgeBase) (r : Restricting)

theorem restrict_atom (a : String) : (atom a).restrict kb r = (.atom a, r) := by
  rw [restrict]
  rfl

/-- a quantified formula: its variables are on the shelf while the body is restricted -/
theorem restrict_binder (b : Binder) : b.toTerm.restrict kb r =
    (guarded b.quantifier b.names
      ((Restricting.leave b.names.length
        (b.body.restrict kb (Restricting.enter b.names b.quantifier r).2).2).1.flatMap
          fun f => f.guards kb)
      (b.body.restrict kb (Restricting.enter b.names b.quantifier r).2).1,
    (Restricting.leave b.names.length
      (b.body.restrict kb (Restricting.enter b.names b.quantifier r).2).2).2) := by
  have h := binder?_toTerm b
  rw [Binder.toTerm] at h ⊢
  rw [restrict]
  generalize hb : (list [atom b.quantifier.name, b.entries, b.body]).binder? = found at h
  subst h
  simp only [State.bind_apply, State.pure_apply]

/-- an application is not changed; what its arguments must be goes to the shelf -/
theorem restrict_application {items : List Term} (hb : (list items).binder? = none)
    (hhead : ((list items).head?.any fun h => !Name.isOperator h) = true) :
    (list items).restrict kb r =
      (.list items, ((list items).places.forM (Restricting.note kb) r).2) := by
  rw [restrict]
  generalize hfound : (list items).binder? = found at hb
  subst hb
  simp only [hhead, if_true, State.bind_apply, State.pure_apply]

/-- under a connective the elements are restricted from left to right -/
theorem restrict_list {items : List Term} (hb : (list items).binder? = none)
    (hhead : ((list items).head?.any fun h => !Name.isOperator h) = false) :
    (list items).restrict kb r =
      (.list (items.mapM (restrict kb) r).1, (items.mapM (restrict kb) r).2) := by
  rw [restrict]
  generalize hfound : (list items).binder? = found at hb
  subst hb
  simp only [hhead, Bool.false_eq_true, if_false, State.bind_apply, State.pure_apply]

end Term

namespace Restricting

variable {kb : KnowledgeBase} {type : Term.Place → Option String} {r r' r'' : Restricting}

/-- the second state is the first one marked with some places, and types are found as before -/
structure Marked (kb : KnowledgeBase) (type : Term.Place → Option String) (ps : List Term.Place)
    (r r' : Restricting) : Prop where
  shelf : r'.shelf = ps.foldl (Shelf.mark type) r.shelf
  cache : Term.Place.type kb r'.cache = type

theorem Marked.trans {ps qs : List Term.Place} (h : Marked kb type ps r r')
    (h' : Marked kb type qs r' r'') : Marked kb type (ps ++ qs) r r'' :=
  ⟨by rw [h'.shelf, h.shelf, List.foldl_append], h'.cache⟩

theorem marked_note (hr : Term.Place.type kb r.cache = type) (p : Term.Place) :
    Marked kb type [p] r (note kb p r).2 := by
  have hcache : Term.Place.type kb (kb.typeOf p.relation p.position r.cache).2 = type := by
    rw [Term.Place.type_typeOf, hr]
  have hp : (kb.typeOf p.relation p.position r.cache).1 = type p := by
    rw [← hr]
    rfl
  unfold note
  simp only [hp]
  cases htype : type p with
  | none => exact ⟨by simp [Shelf.mark, htype], hcache⟩
  | some t => exact ⟨by simp [Shelf.mark, htype], hcache⟩

theorem marked_forM (hr : Term.Place.type kb r.cache = type) (ps : List Term.Place) :
    Marked kb type ps r (ps.forM (note kb) r).2 := by
  induction ps generalizing r with
  | nil => exact ⟨rfl, hr⟩
  | cons p ps ih =>
    have hnote := marked_note hr p
    rw [State.forM_cons_apply]
    exact hnote.trans (ih hnote.cache)

/-- the frames on top are taken off -/
theorem leave_append {top s : Shelf} {count : Nat} (h : r.shelf = top ++ s)
    (hlength : top.length = count) : leave count r = (top.reverse, ⟨s, r.cache⟩) := by
  have hdepth : r.shelf.length - (r.shelf.depth - count) = count := by
    rw [Shelf.depth, h, List.length_append]
    omega
  rw [leave]
  simp only [Shelf.pop, hdepth]
  rw [h, List.take_left' hlength, List.drop_left' hlength]

end Restricting

namespace Term

variable {kb : KnowledgeBase} {type : Place → Option String}

/-- restricting does the same at every shelf, which is marked with the free places -/
theorem restrict_eq {t : Term} {r : Restricting} (hr : Place.type kb r.cache = type) :
    (t.restrict kb r).1 = t.relativize kb type ∧
      Restricting.Marked kb type (t.freePlaces places) r (t.restrict kb r).2 := by
  induction t using binderInduction generalizing r with
  | atom a =>
    rw [restrict_atom, relativize_atom, freePlaces_atom]
    exact ⟨rfl, rfl, hr⟩
  | binder b ih =>
    obtain ⟨hbody, hshelf, hcache⟩ := @ih (Restricting.enter b.names b.quantifier r).2 hr
    -- the frames of the bound variables are the ones on top
    have hlength : (b.frames type).reverse.length = b.names.length := by
      rw [List.length_reverse, Binder.length_frames]
    have hleave := Restricting.leave_append (hshelf.trans (b.foldl_mark_push type r.shelf)) hlength
    rw [restrict_binder, relativize_binder, freePlaces_binder, hbody, hleave, List.reverse_reverse]
    exact ⟨rfl, rfl, hcache⟩
  | list items hb ih =>
    cases hhead : (list items).head?.any fun h => !Name.isOperator h with
    | true =>
      rw [restrict_application kb r hb hhead, relativize_application kb type hb hhead,
        freePlaces_application places hb hhead]
      exact ⟨rfl, Restricting.marked_forM hr _⟩
    | false =>
      have heach : ∀ (xs : List Term) (r : Restricting), (∀ x ∈ xs, x ∈ items) →
          Place.type kb r.cache = type → (xs.mapM (restrict kb) r).1 = xs.map (relativize kb type) ∧
            Restricting.Marked kb type (xs.flatMap (freePlaces places)) r
              (xs.mapM (restrict kb) r).2 := by
        intro xs
        induction xs with
        | nil => exact fun r _ hr => ⟨rfl, rfl, hr⟩
        | cons x xs ihxs =>
          intro r hsub hr
          obtain ⟨hx, hxs⟩ := List.forall_mem_cons.mp hsub
          obtain ⟨hfirst, hmarked⟩ := ih x hx hr
          obtain ⟨hrest, hmarked'⟩ := ihxs _ hxs hmarked.cache
          rw [State.mapM_cons_apply, hfirst, hrest]
          exact ⟨rfl, hmarked.trans hmarked'⟩
      obtain ⟨hitems, hmarked⟩ := heach items r (fun x hx => hx) hr
      rw [restrict_list kb r hb hhead, relativize_list kb type hb hhead,
        freePlaces_list places hb hhead, hitems]
      exact ⟨rfl, hmarked⟩

end Term

end OntologyPrep
