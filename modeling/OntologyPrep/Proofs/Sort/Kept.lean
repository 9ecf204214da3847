import OntologyPrep.Proofs.Sort.Restriction
import OntologyPrep.Sort.Inference

/-!
# What looking at types does to the cache

`TypeCache.KeptByTypes kb I` says that the property `I` of caches is kept when the type of an argument
is remembered as it is found in `kb`.  Then it is kept by restricting a formula to the declared types
(`Term.maintains_restrictTypes`) and by collecting the types of a variable (`Term.maintains_typesOf`),
which look at types only by `KnowledgeBase.typeOf`.  `TypeCache.Kept kb I` says that `I` is also kept
when a fact about a class is remembered.
-/

namespace OntologyPrep

open State

/-- the property is kept by what is remembered while types are looked up in the knowledge base -/
structure TypeCache.Kept (kb : KnowledgeBase) (I : TypeCache → Prop) : Prop where
  argument : ∀ c, I c → ∀ relation position,
    I (c.insert (argumentKey relation position) (kb.searchType relation position))
  sortal : ∀ c, I c → ∀ cls, I (c.insert (sortalKey cls) (some KnowledgeBase.setOrClass))

/-- the property is kept by what is remembered while nothing but types is looked up -/
def TypeCache.KeptByTypes (kb : KnowledgeBase) (I : TypeCache → Prop) : Prop :=
  ∀ c, I c → ∀ relation position,
    I (c.insert (argumentKey relation position) (kb.searchType relation position))

variable {kb : KnowledgeBase} {I : TypeCache → Prop}

theorem TypeCache.Kept.keptByTypes (h : Kept kb I) : KeptByTypes kb I := h.argument

theorem KnowledgeBase.maintains_typeOf (h : TypeCache.KeptByTypes kb I) (relation : String)
    (position : Nat) :
    Maintains I (kb.typeOf relation position) := by
  intro c hc
  unfold typeOf TypeCache.getOrAdd
  cases c.get? (TypeCache.argumentKey relation position) with
  | some result => exact hc
  | none => exact h c hc relation position

/-! ## restricting -/

theorem Restricting.maintains_note (h : TypeCache.KeptByTypes kb I) (p : Term.Place) :
    Maintains (fun r => I r.cache) (note kb p) := by
  intro r hr
  have hfound := KnowledgeBase.maintains_typeOf h p.relation p.position r.cache hr
  unfold note
  simp only
  split <;> exact hfound

namespace Term

theorem maintains_restrict (h : TypeCache.KeptByTypes kb I) (t : Term) :
    Maintains (fun r => I r.cache) (t.restrict kb) := by
  induction t using binderInduction with
  | atom a =>
    intro r hr
    rw [restrict_atom]
    exact hr
  | binder b ih =>
    intro r hr
    rw [restrict_binder]
    exact ih (Restricting.enter b.names b.quantifier r).2 hr
  | list items hb ih =>
    intro r hr
    cases hhead : (list items).head?.any fun h => !Name.isOperator h with
    | true =>
      rw [restrict_application kb r hb hhead]
      exact maintains_forM (fun p _ => Restricting.maintains_note h p) r hr
    | false =>
      rw [restrict_list kb r hb hhead]
      exact maintains_mapM ih r hr

theorem maintains_restrictTypes (h : TypeCache.KeptByTypes kb I) (t : Term) :
    Maintains I (t.restrictTypes kb) :=
  fun c hc => maintains_restrict h t.closeUniversally ⟨[], c⟩ hc

end Term

/-! ## the types of one variable -/

namespace Inferring

theorem maintains_typeOf (h : TypeCache.KeptByTypes kb I) (relation : String) (position : Nat) :
    Maintains (fun s => I s.cache) (typeOf kb relation position) :=
  fun s hs => KnowledgeBase.maintains_typeOf h relation position s.cache hs

theorem maintains_add (type : String) : Maintains (fun s => I s.cache) (add type) := fun _ hs => hs

theorem maintains_typeOfValue (h : TypeCache.KeptByTypes kb I) (t : Term) :
    Maintains (fun s => I s.cache) (typeOfValue kb t) := by
  unfold typeOfValue
  split
  · exact maintains_typeOf h _ 0
  · exact maintains_pure none

theorem maintains_addValueType (h : TypeCache.KeptByTypes kb I) (t : Term) :
    Maintains (fun s => I s.cache) (addValueType kb t) := by
  refine (maintains_typeOfValue h t).bind fun type? => ?_
  cases type? with
  | some type => exact maintains_add type
  | none => exact maintains_pure ()

theorem maintains_addValueClass (h : TypeCache.KeptByTypes kb I) (t : Term) (ending : String) :
    Maintains (fun s => I s.cache) (addValueClass kb t ending) := by
  refine (maintains_typeOfValue h t).bind fun type? => ?_
  cases type?.bind subclassBase? with
  | some base => exact maintains_add (base ++ ending)
  | none => exact maintains_pure ()

theorem maintains_addArguments (h : TypeCache.KeptByTypes kb I) (name relation : String)
    (position : Nat) (args : List Term) :
    Maintains (fun s => I s.cache) (addArguments kb name relation position args) := by
  induction args generalizing position with
  | nil => exact maintains_pure ()
  | cons t ts ih =>
    rw [addArguments]
    split
    · refine (maintains_typeOf h relation position).bind fun type? => ?_
      cases type? with
      | some type => exact (maintains_add type).bind fun _ => ih (position + 1)
      | none => exact (maintains_pure ()).bind fun _ => ih (position + 1)
    · exact (maintains_pure ()).bind fun _ => ih (position + 1)

theorem maintains_addApplication (h : TypeCache.KeptByTypes kb I) (name relation : String)
    (args : List Term) :
    Maintains (fun s => I s.cache) (addApplication kb name relation args) := by
  unfold addApplication
  simp only
  split
  · split
    · exact maintains_addValueType h _
    · split
      · exact maintains_addValueType h _
      · exact maintains_addArguments h name _ 1 _
  · split
    · exact maintains_addValueClass h _ ""
    · exact maintains_addArguments h name _ 1 _
  · split
    · exact maintains_addValueClass h _ "+"
    · exact maintains_addArguments h name _ 1 _
  · exact maintains_addArguments h name relation 1 args

theorem maintains_addTerm (h : TypeCache.KeptByTypes kb I) (name : String) (t : Term) :
    Maintains (fun s => I s.cache) (addTerm kb name t) := by
  match t with
  | .atom a =>
    rw [addTerm]
    exact maintains_pure ()
  | .list items =>
    rw [addTerm]
    split
    · next b hb => exact maintains_addTerm h name b.body
    · have hitems : Maintains (fun s => I s.cache) (items.mapM (addTerm kb name)) :=
        maintains_mapM fun x _ => maintains_addTerm h name x
      have hrest : Maintains (fun s => I s.cache) (items.mapM (addTerm kb name) >>= fun _ => pure ()) :=
        hitems.bind fun _ => maintains_pure ()
      simp only
      split
      · split
        · exact (maintains_addApplication h name _ _).bind fun _ => hrest
        · exact hrest
      · exact hrest
termination_by sizeOf t
decreasing_by
  · exact Term.sizeOf_body_lt ‹_›
  · decreasing_tactic

end Inferring

theorem Term.maintains_typesOf (h : TypeCache.KeptByTypes kb I) (name : String) (t : Term) :
    Maintains I (t.typesOf kb name) :=
  fun c hc => Inferring.maintains_addTerm h name t ⟨.empty, c⟩ hc

end OntologyPrep
