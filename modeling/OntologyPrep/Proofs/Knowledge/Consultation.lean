import OntologyPrep.Proofs.Knowledge.Hierarchy
import OntologyPrep.Proofs.State

/-!
# Remembered superclasses are the current ones

`Consulted.Current kb` says of a consulted knowledge base that it is `kb` and that the superclasses in
it are those of `kb`.  A question keeps this, and its answer is that of `kb` itself (`Consulted.Gives`);
telling a term takes it from `kb` to `kb.tell t` (`Consulted.Current.tell`).

So after any calls, in any order, the answers about classes are those of the statements told so far
(`Consulted.hierarchy_after`).
-/

namespace OntologyPrep.Consulted

/-- the knowledge base, with no superclasses remembered but its own -/
structure Current (kb : KnowledgeBase) (s : Consulted) : Prop where
  base : s.base = kb
  found : ∀ cls classes, s.found[cls]? = some classes → classes = kb.superclasses cls

theorem current_start (kb : KnowledgeBase) : Current kb (start kb) where
  base := rfl
  found cls classes h := by simp [start] at h

/-- the computation returns a value, whatever is remembered of the knowledge base -/
def Gives {α : Type} (kb : KnowledgeBase) (m : StateM Consulted α) (x : α) : Prop :=
  ∀ s, Current kb s → (m s).1 = x ∧ Current kb (m s).2

variable {kb : KnowledgeBase}

/-! ## computations -/

section

variable {α β : Type} {m : StateM Consulted α} {x : α}

theorem gives_pure (x : α) : Gives kb (pure x) x := fun _ hs => ⟨rfl, hs⟩

theorem Gives.bind {f : α → StateM Consulted β} {y : β} (hm : Gives kb m x)
    (hf : Gives kb (f x) y) : Gives kb (m >>= f) y := by
  intro s hs
  obtain ⟨hx, hmid⟩ := hm s hs
  rw [State.bind_apply, hx]
  exact hf _ hmid

theorem gives_knowledge : Gives kb knowledge kb := fun _ hs => ⟨hs.base, hs⟩

theorem gives_anyM {p : α → Bool} {f : α → StateM Consulted Bool} (h : ∀ x, Gives kb (f x) (p x))
    (xs : List α) : Gives kb (xs.anyM f) (xs.any p) := by
  induction xs with
  | nil => exact gives_pure false
  | cons x xs ih =>
    rw [List.anyM, List.any_cons]
    refine (h x).bind ?_
    cases p x with
    | true => exact gives_pure true
    | false => exact ih

theorem gives_filterAuxM {p : α → Bool} {f : α → StateM Consulted Bool}
    (h : ∀ x, Gives kb (f x) (p x)) (xs kept : List α) :
    Gives kb (xs.filterAuxM f kept) ((xs.filter p).reverse ++ kept) := by
  induction xs generalizing kept with
  | nil => exact gives_pure kept
  | cons x xs ih =>
    rw [List.filterAuxM]
    refine (h x).bind ?_
    have hrest := ih (if p x then x :: kept else kept)
    rw [List.filter_cons]
    cases hx : p x with
    | true =>
      rw [hx] at hrest
      simpa using hrest
    | false =>
      rw [hx] at hrest
      simpa using hrest

theorem gives_filterM {p : α → Bool} {f : α → StateM Consulted Bool} (h : ∀ x, Gives kb (f x) (p x))
    (xs : List α) : Gives kb (xs.filterM f) (xs.filter p) := by
  rw [List.filterM]
  refine (gives_filterAuxM h xs []).bind ?_
  rw [List.append_nil, List.reverse_reverse]
  exact gives_pure _

theorem gives_findSomeM? {p : α → Option β} {f : α → StateM Consulted (Option β)}
    (h : ∀ x, Gives kb (f x) (p x)) (xs : List α) : Gives kb (xs.findSomeM? f) (xs.findSome? p) := by
  induction xs with
  | nil => exact gives_pure none
  | cons x xs ih =>
    rw [List.findSomeM?, List.findSome?_cons]
    refine (h x).bind ?_
    cases p x with
    | some y => exact gives_pure (some y)
    | none => exact ih

end

/-! ## questions -/

/-- the one question that looks at what is remembered -/
theorem gives_superclasses (cls : String) : Gives kb (superclasses cls) (kb.superclasses cls) := by
  intro s hs
  unfold superclasses
  cases hfound : s.found[cls]? with
  | some classes => exact ⟨hs.found cls classes hfound, hs⟩
  | none =>
    refine ⟨by simp only [hs.base], hs.base, fun c classes h => ?_⟩
    simp only [hs.base, Std.TreeMap.getElem?_insert] at h
    split at h
    · next he =>
      rw [← Std.LawfulEqCmp.compare_eq_iff_eq.mp he]
      exact (Option.some.inj h).symm
    · exact hs.found c classes h

theorem gives_isSubclass (sub sup : String) :
    Gives kb (isSubclass sub sup) (kb.isSubclass sub sup) := by
  rw [KnowledgeBase.isSubclass_eq]
  unfold isSubclass
  by_cases he : sub = sup
  · rw [if_pos he, decide_eq_false (not_not_intro he)]
    exact gives_pure false
  · rw [if_neg he, decide_eq_true he, Bool.true_and]
    exact (gives_superclasses sub).bind (gives_pure _)

theorem gives_isInstance (item cls : String) :
    Gives kb (isInstance item cls) (kb.isInstance item cls) := by
  refine gives_knowledge.bind (gives_anyM (fun c => ?_) _)
  by_cases he : c = cls
  · rw [if_pos he, decide_eq_true he]
    exact gives_pure true
  · rw [if_neg he, decide_eq_false he]
    exact gives_isSubclass c cls

theorem gives_instancesOf (cls : String) : Gives kb (instancesOf cls) (kb.instancesOf cls) :=
  gives_knowledge.bind (gives_filterM (fun item => gives_isInstance item cls) _)

theorem gives_ask (l : Literal) : Gives kb (ask l) (kb.ask l) := by
  refine gives_knowledge.bind ?_
  unfold KnowledgeBase.ask
  cases KnowledgeBase.classAsked? l with
  | none => exact gives_pure _
  | some cls => exact (gives_instancesOf cls).bind (gives_pure _)

theorem gives_inheritedValence? (relation : String) :
    Gives kb (inheritedValence? relation) (kb.inheritedValence? relation) :=
  gives_knowledge.bind (gives_findSomeM? (fun c => (gives_superclasses c).bind (gives_pure _)) _)

theorem gives_valence (relation : String) : Gives kb (valence relation) (kb.valence relation) := by
  refine gives_knowledge.bind ?_
  unfold KnowledgeBase.valence
  cases kb.valences[relation]? with
  | some n => exact gives_pure n
  | none =>
    cases KnowledgeBase.listed? KnowledgeBase.builtinValences relation with
    | some n => exact gives_pure n
    | none => exact (gives_inheritedValence? relation).bind (gives_pure _)

theorem gives_isRelationClass (cls : String) :
    Gives kb (isRelationClass cls) (kb.isRelationClass cls) := by
  unfold isRelationClass KnowledgeBase.isRelationClass
  by_cases he : cls = KnowledgeBase.relationClass
  · rw [if_pos he, decide_eq_true he]
    exact gives_pure true
  · rw [if_neg he, decide_eq_false he]
    exact gives_isSubclass cls _

theorem gives_signature? (relation : String) :
    Gives kb (signature? relation) (kb.signature? relation) := by
  refine gives_knowledge.bind ((gives_valence relation).bind ?_)
  unfold KnowledgeBase.signature?
  simp only
  cases (kb.having [(0, "domain"), (1, relation)]).isEmpty && decide (kb.valence relation < 0) with
  | true => exact gives_pure none
  | false =>
    exact (gives_filterM (fun d : Nat × String => gives_isRelationClass d.2) _).bind (gives_pure _)

/-! ## telling -/

theorem base_tell (t : Term) (s : Consulted) : (tell t s).2.base = s.base.tell t := by
  unfold tell
  cases h : s.base.knows t with
  | true => exact (KnowledgeBase.tell_of_knows h).symm
  | false => rfl

/-- what is remembered is forgotten if it may have changed -/
theorem Current.tell (hkb : kb.Faithful) {s : Consulted} (hs : Current kb s) (t : Term) :
    Current (kb.tell t) (Consulted.tell t s).2 := by
  refine ⟨by rw [base_tell, hs.base], fun cls classes h => ?_⟩
  unfold Consulted.tell at h
  rw [hs.base] at h
  cases hknows : kb.knows t with
  | true =>
    rw [hknows] at h
    rw [KnowledgeBase.tell_of_knows hknows]
    exact hs.found cls classes h
  | false =>
    rw [hknows] at h
    cases ht : t.isSubclassStatement with
    | true => simp [ht] at h
    | false =>
      rw [KnowledgeBase.superclasses_tell hkb ht]
      simp only [ht] at h
      exact hs.found cls classes h

/-! ## calls -/

/-- what can be done with a knowledge base.  All else that asks for classes does so by these questions. -/
inductive Call where
  | tell (t : Term)
  | superclasses (cls : String)
  | isSubclass (sub sup : String)
  | isInstance (item cls : String)
  | instancesOf (cls : String)
  | ask (l : Literal)
  | valence (relation : String)
  | signature (relation : String)

/-- a call carried out, its answer left aside -/
def Call.run : Call → StateM Consulted Unit
  | .tell t => Functor.discard (Consulted.tell t)
  | .superclasses cls => Functor.discard (Consulted.superclasses cls)
  | .isSubclass sub sup => Functor.discard (Consulted.isSubclass sub sup)
  | .isInstance item cls => Functor.discard (Consulted.isInstance item cls)
  | .instancesOf cls => Functor.discard (Consulted.instancesOf cls)
  | .ask l => Functor.discard (Consulted.ask l)
  | .valence relation => Functor.discard (Consulted.valence relation)
  | .signature relation => Functor.discard (Consulted.signature? relation)

/-- the term that a call tells -/
def Call.told? : Call → Option Term
  | .tell t => some t
  | _ => none

/-- the knowledge base after calls in an empty one -/
def after (calls : List Call) : Consulted := (calls.forM Call.run (start .empty)).2

theorem Call.current_run (hkb : kb.Faithful) {s : Consulted} (hs : Current kb s) (call : Call) :
    Current (kb.tellAll call.told?.toList) (call.run s).2 := by
  cases call with
  | tell t => exact hs.tell hkb t
  | superclasses cls => exact (gives_superclasses cls s hs).2
  | isSubclass sub sup => exact (gives_isSubclass sub sup s hs).2
  | isInstance item cls => exact (gives_isInstance item cls s hs).2
  | instancesOf cls => exact (gives_instancesOf cls s hs).2
  | ask l => exact (gives_ask l s hs).2
  | valence relation => exact (gives_valence relation s hs).2
  | signature relation => exact (gives_signature? relation s hs).2

theorem current_forM (hkb : kb.Faithful) {s : Consulted} (hs : Current kb s) (calls : List Call) :
    Current (kb.tellAll (calls.filterMap Call.told?)) (calls.forM Call.run s).2 := by
  induction calls generalizing kb s with
  | nil => exact hs
  | cons call calls ih =>
    have hrest := ih (hkb.tellAll call.told?.toList) (call.current_run hkb hs)
    rw [State.forM_cons_apply, List.filterMap_cons]
    cases htold : call.told? with
    | none =>
      rw [htold] at hrest
      exact hrest
    | some t =>
      rw [htold] at hrest
      exact hrest

/-- after any calls, what is remembered is what the terms told by them say -/
theorem current_after (calls : List Call) :
    Current (.tellAll .empty (calls.filterMap Call.told?)) (after calls) :=
  current_forM KnowledgeBase.faithful_empty (current_start .empty) calls

/-- a statement told by one of the calls puts a value over an item -/
def Says (calls : List Call) (relation item value : String) : Prop :=
  ∃ t, .tell t ∈ calls ∧ t.isStatement = true ∧ t.Says relation item value

theorem toldOf_iff_says {calls : List Call} {relation item value : String} :
    (KnowledgeBase.empty.tellAll (calls.filterMap Call.told?)).ToldOf relation item value ↔
      Says calls relation item value := by
  have hmem : ∀ t, t ∈ (KnowledgeBase.empty.tellAll (calls.filterMap Call.told?)).told ↔
      .tell t ∈ calls := by
    intro t
    rw [KnowledgeBase.mem_told_tellAll, List.mem_filterMap]
    constructor
    · rintro ⟨call, hcall, ht⟩
      cases call with
      | tell u => cases ht; exact hcall
      | _ => cases ht
    · exact fun h => ⟨_, h, rfl⟩
  refine exists_congr fun t => ?_
  rw [KnowledgeBase.Told, hmem, and_assoc]
  rfl

/-- After any calls, in any order, the superclasses of a class are the other classes that lead from it
by one or more statements told so far.  So no class is below itself, being below is transitive but for
coming back to the start, and the instances of a class are those told of it or of a class that leads to
it. -/
theorem hierarchy_after (calls : List Call) :
    (∀ cls, (superclasses cls (after calls)).1.Pairwise (fun a b => compare a b = .lt) ∧
      ∀ c, c ∈ (superclasses cls (after calls)).1 ↔
        c ≠ cls ∧ Relation.TransGen (Says calls "subclass") cls c) ∧
    (∀ cls, (isSubclass cls cls (after calls)).1 = false) ∧
    (∀ a b c, (isSubclass a b (after calls)).1 = true → (isSubclass b c (after calls)).1 = true →
      a ≠ c → (isSubclass a c (after calls)).1 = true) ∧
    ∀ item cls, (isInstance item cls (after calls)).1 = true ↔
      ∃ c, Says calls "instance" item c ∧
        (c = cls ∨ Relation.TransGen (Says calls "subclass") c cls) := by
  have hcurrent := current_after calls
  have hf := KnowledgeBase.faithful_tellAll (calls.filterMap Call.told?)
  have hc := KnowledgeBase.complete_tellAll (calls.filterMap Call.told?)
  have hsays : (KnowledgeBase.empty.tellAll (calls.filterMap Call.told?)).ToldOf = Says calls := by
    funext relation item value
    exact propext toldOf_iff_says
  have hbelow : ∀ a b, (isSubclass a b (after calls)).1 = true ↔
      a ≠ b ∧ Relation.TransGen (Says calls "subclass") a b := by
    intro a b
    rw [(gives_isSubclass a b _ hcurrent).1, KnowledgeBase.isSubclass_iff hf hc, hsays]
  refine ⟨fun cls => ?_, fun cls => ?_, fun a b c hab hbc hne => ?_, fun item cls => ?_⟩
  · rw [(gives_superclasses cls _ hcurrent).1]
    refine ⟨KnowledgeBase.pairwise_superclasses cls, fun c => ?_⟩
    rw [KnowledgeBase.mem_superclasses_iff hf hc, hsays]
  · exact Bool.eq_false_iff.mpr fun h => ((hbelow cls cls).mp h).1 rfl
  · exact (hbelow a c).mpr ⟨hne, ((hbelow a b).mp hab).2.trans ((hbelow b c).mp hbc).2⟩
  · rw [(gives_isInstance item cls _ hcurrent).1, KnowledgeBase.isInstance_iff hf hc, hsays]

/-- classes in a cycle, looked up before and after the cycle is closed, and one that the cycle is
under -/
def cycleCalls : List Call :=
  [.tell (.app "subclass" [.atom "A", .atom "B"]), .superclasses "A", .superclasses "B",
    .tell (.app "subclass" [.atom "B", .atom "A", .atom "C"]), .isSubclass "A" "C",
    .tell (.app "subclass" [.atom "B", .atom "C"])]

/-- the cycle takes part in no answer but for its other class -/
theorem hierarchy_after_cycle :
    (superclasses "A" (after cycleCalls)).1 = ["B", "C"] ∧
    (isSubclass "A" "A" (after cycleCalls)).1 = false ∧
    (isSubclass "A" "B" (after cycleCalls)).1 = true ∧
    (isSubclass "B" "C" (after cycleCalls)).1 = true ∧
    (isSubclass "A" "C" (after cycleCalls)).1 = true := by
  obtain ⟨-, hirreflexive, htransitive, -⟩ := hierarchy_after cycleCalls
  have hab : (isSubclass "A" "B" (after cycleCalls)).1 = true := by cbv
  have hbc : (isSubclass "B" "C" (after cycleCalls)).1 = true := by cbv
  exact ⟨by cbv, hirreflexive "A", hab, hbc, htransitive "A" "B" "C" hab hbc (by decide)⟩

end OntologyPrep.Consulted
