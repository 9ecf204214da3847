import Mathlib.Data.List.Nodup
import OntologyPrep.Proofs.Knowledge.Consultation
import OntologyPrep.Proofs.Knowledge.Matching

/-!
# What a literal is answered

A literal is answered by the told statements that it matches, in the order of telling
(`KnowledgeBase.matching_eq`, `KnowledgeBase.ask_eq_matching`).  One about the instances of a class is
also answered by what follows for the class from the classes below it (`KnowledgeBase.mem_ask_iff`); no
answer is given twice (`KnowledgeBase.nodup_ask`).

Instances are inherited by names only: an individual, or a class, that is a list takes part in the told
statements that are matched, but not in what follows from them.  And of a statement about classes no more
than two arguments are read.  So the answers are not what the matched statements and the hierarchy alone
would suggest (`Consulted.not_answers_exact`); what they are, after any calls, is `Consulted.ask_after`.
-/

namespace OntologyPrep

/-! ## what a literal matches -/

/-- a pattern takes the first term, and the patterns behind it take the others -/
theorem Term.exists_of_matchAll?_cons {p : Term} {ps values : List Term} {env env' : Bindings}
    (h : matchAll? (p :: ps) values env = some env') : ∃ v vs env₁, values = v :: vs ∧
      p.match? v env = some env₁ ∧ matchAll? ps vs env₁ = some env' := by
  cases values with
  | nil => simp [matchAll?] at h
  | cons v vs =>
    rw [matchAll?] at h
    split at h
    · next env₁ hfirst => exact ⟨v, vs, env₁, rfl, hfirst, h⟩
    · cases h

namespace Literal

variable {l : Literal} {t : Term}

theorem head?_of_accepts (h : l.accepts t = true) : t.head? = some l.relation := by
  by_contra hne
  rw [accepts, bindings?, if_neg hne] at h
  cases h

/-- a literal about a class matches statements about the class only -/
theorem exists_of_accepts {relation cls : String} {pattern : Term} (hcls : Name.isVariable cls = false)
    (h : (Literal.mk relation [pattern, .atom cls]).accepts t = true) :
    ∃ item, t = .app relation [item, .atom cls] := by
  have hhead := head?_of_accepts h
  have happ := eq_of_head? hhead
  rw [accepts, bindings?, if_pos hhead] at h
  obtain ⟨env, henv⟩ := Option.isSome_iff_exists.mp h
  obtain ⟨item, rest, env₁, hargs, -, hrest⟩ := Term.exists_of_matchAll?_cons henv
  obtain ⟨value, more, env₂, rfl, hvalue, hmore⟩ := Term.exists_of_matchAll?_cons hrest
  obtain rfl := Term.match?_eq_of_ground (.atom cls) (by rw [Term.containsVariable_atom, hcls]) hvalue
  obtain rfl := Term.matchAll?_eq_of_ground [] (by simp) hmore
  exact ⟨item, by rw [happ, hargs]⟩

end Literal

/-! ## the answers of a knowledge base -/

namespace KnowledgeBase

variable {kb : KnowledgeBase} {l : Literal} {t : Term} {cls : String}

/-- matching is a scan over the told terms -/
theorem matching_eq (hc : kb.Complete) (l : Literal) :
    kb.matching l = kb.told.toList.filter fun t => t.isStatement && l.accepts t := by
  rw [matching, hc.find, List.filter_filter]
  refine List.filter_congr fun t _ => ?_
  have hhead : l.accepts t = true → t.atomAt? 0 = some l.relation := by
    intro h
    have hfirst := Literal.head?_of_accepts h
    rw [Term.head?, Term.first?, List.head?_eq_getElem?] at hfirst
    exact hfirst
  cases haccepts : l.accepts t with
  | false => simp
  | true => simp [hhead haccepts]

theorem mem_matching_iff (hc : kb.Complete) :
    t ∈ kb.matching l ↔ kb.Told t ∧ l.accepts t = true := by
  rw [matching_eq hc, List.mem_filter, Array.mem_toList_iff, Bool.and_eq_true, ← and_assoc]
  rfl

theorem classAsked?_eq_some_iff : classAsked? l = some cls ↔
    ∃ pattern, l = ⟨"instance", [pattern, .atom cls]⟩ ∧ Name.isVariable cls = false := by
  constructor
  · intro h
    unfold classAsked? at h
    split at h
    · next pattern c hrelation hargs =>
      split at h
      · cases h
      · next hvar =>
        cases h
        refine ⟨pattern, ?_, by simpa using hvar⟩
        rw [← hrelation, ← hargs]
    · cases h
  · rintro ⟨pattern, rfl, hcls⟩
    simp [classAsked?, hcls]

theorem mem_instancesOf_iff {item : String} :
    item ∈ kb.instancesOf cls ↔ kb.isInstance item cls = true := by
  rw [instancesOf, List.mem_filter, and_iff_right_iff_imp]
  intro h
  obtain ⟨c, hc, -⟩ := List.any_eq_true.mp h
  by_contra hkey
  -- an individual without an entry has no classes
  rw [classesOf, Std.TreeSet.mem_toList, Std.TreeMap.getD_eq_fallback
    fun hmem => hkey (Std.TreeMap.mem_keys.mpr hmem)] at hc
  exact Std.TreeSet.not_mem_emptyc hc

/-- the literal does not matter for what follows, but for what it matches -/
theorem mem_inferred_iff (hf : kb.Faithful) (hc : kb.Complete) :
    t ∈ kb.inferred l cls ↔ l.accepts t = true ∧ ∃ item, t = .app "instance" [.atom item, .atom cls] ∧
      ∃ c, kb.ToldOf "instance" item c ∧
        (c = cls ∨ Relation.TransGen (kb.ToldOf "subclass") c cls) := by
  rw [inferred, List.mem_filter, List.mem_map, and_comm]
  refine and_congr_right fun _ => exists_congr fun item => ?_
  rw [mem_instancesOf_iff, isInstance_iff hf hc, and_comm, eq_comm]

theorem nodup_inferred (l : Literal) (cls : String) : (kb.inferred l cls).Nodup := by
  refine List.Nodup.filter _ (List.Nodup.map (fun a b hab => ?_) (Std.TreeMap.nodup_keys.filter _))
  simpa [Term.app] using hab

/-- a literal that asks for no class is answered by what it matches -/
theorem ask_eq_matching (h : classAsked? l = none) : kb.ask l = kb.matching l := by
  rw [ask]
  simp only [h]

theorem ask_eq_append (h : classAsked? l = some cls) :
    kb.ask l = kb.matching l ++ (kb.inferred l cls).filter fun t => !(kb.matching l).contains t := by
  rw [ask]
  simp only [h]

/-- a literal about a class is answered by what it matches, and by what follows for the class -/
theorem mem_ask_iff (hf : kb.Faithful) (hc : kb.Complete) (h : classAsked? l = some cls) :
    t ∈ kb.ask l ↔ l.accepts t = true ∧ (kb.Told t ∨
      ∃ item, t = .app "instance" [.atom item, .atom cls] ∧ ∃ c, kb.ToldOf "instance" item c ∧
        (c = cls ∨ Relation.TransGen (kb.ToldOf "subclass") c cls)) := by
  have hsplit : t ∈ kb.ask l ↔ t ∈ kb.matching l ∨ t ∈ kb.inferred l cls := by
    rw [ask_eq_append h, List.mem_append, List.mem_filter, Bool.not_eq_true', List.contains_eq_mem,
      decide_eq_false_iff_not]
    constructor
    · exact .imp_right And.left
    · intro ht
      by_cases hmatching : t ∈ kb.matching l
      · exact .inl hmatching
      · exact .inr ⟨ht.resolve_left hmatching, hmatching⟩
  rw [hsplit, mem_matching_iff hc, mem_inferred_iff hf hc, and_comm (a := kb.Told t), ← and_or_left]

/-- every answer is given once, if every term has been told once -/
theorem nodup_ask (hc : kb.Complete) (htold : kb.told.toList.Nodup) (l : Literal) :
    (kb.ask l).Nodup := by
  have hmatching : (kb.matching l).Nodup := by
    rw [matching_eq hc]
    exact htold.filter _
  cases hl : classAsked? l with
  | none =>
    rw [ask_eq_matching hl]
    exact hmatching
  | some cls =>
    rw [ask_eq_append hl]
    refine hmatching.append ((nodup_inferred l cls).filter _) fun t ht hrest => ?_
    have hnew := (List.mem_filter.mp hrest).2
    simp [ht] at hnew

end KnowledgeBase

/-! ## the answers after calls -/

namespace Consulted

/-- the statement has been told by one of the calls -/
def Tells (calls : List Call) (t : Term) : Prop := .tell t ∈ calls ∧ t.isStatement = true

/-- the literal about the instances of a class, with a pattern for the individual -/
def membership (pattern : Term) (cls : String) : Literal := ⟨"instance", [pattern, .atom cls]⟩

theorem told_iff_tells {calls : List Call} {t : Term} :
    (KnowledgeBase.empty.tellAll (calls.filterMap Call.told?)).Told t ↔ Tells calls t := by
  rw [KnowledgeBase.Told, ← Array.mem_toList_iff, KnowledgeBase.told_tellAll, List.mem_eraseDups,
    List.mem_filterMap]
  refine and_congr_left fun _ => ⟨?_, fun h => ⟨.tell t, h, rfl⟩⟩
  rintro ⟨call, hcall, ht⟩
  cases call with
  | tell u => exact Option.some.inj ht ▸ hcall
  | _ => cases ht

/-- After any calls, in any order, the answers about the instances of a class are, each once, the
statements about the class that the literal matches and that have been told themselves or follow: their
individual is a name, and a told statement puts it in the class or in one from which told statements lead
up to the class.  Any other literal is answered by the told statements that it matches, in the order of
telling. -/
theorem ask_after (calls : List Call) :
    (∀ pattern cls, Name.isVariable cls = false →
      (ask (membership pattern cls) (after calls)).1.Nodup ∧
      ∀ t, t ∈ (ask (membership pattern cls) (after calls)).1 ↔
        ∃ item, t = .app "instance" [item, .atom cls] ∧ (membership pattern cls).accepts t = true ∧
          (Tells calls t ∨ ∃ name, item = .atom name ∧ ∃ c, Says calls "instance" name c ∧
            (c = cls ∨ Relation.TransGen (Says calls "subclass") c cls))) ∧
    ∀ l, (∀ pattern cls, l = membership pattern cls → Name.isVariable cls = true) →
      (ask l (after calls)).1 =
        (calls.filterMap Call.told?).eraseDups.filter fun t => t.isStatement && l.accepts t := by
  have hf := KnowledgeBase.faithful_tellAll (calls.filterMap Call.told?)
  have hc := KnowledgeBase.complete_tellAll (calls.filterMap Call.told?)
  have htold := KnowledgeBase.told_tellAll (calls.filterMap Call.told?)
  have hsays : (KnowledgeBase.empty.tellAll (calls.filterMap Call.told?)).ToldOf = Says calls := by
    funext relation item value
    exact propext toldOf_iff_says
  have hask : ∀ l, (ask l (after calls)).1 =
      (KnowledgeBase.empty.tellAll (calls.filterMap Call.told?)).ask l :=
    fun l => (gives_ask l _ (current_after calls)).1
  refine ⟨fun pattern cls hcls => ?_, fun l hl => ?_⟩
  · have hasked : KnowledgeBase.classAsked? (membership pattern cls) = some cls :=
      KnowledgeBase.classAsked?_eq_some_iff.mpr ⟨pattern, rfl, hcls⟩
    rw [hask]
    refine ⟨KnowledgeBase.nodup_ask hc (htold ▸ Distinct.nodup_eraseDups _) _, fun t => ?_⟩
    rw [KnowledgeBase.mem_ask_iff hf hc hasked, told_iff_tells, hsays]
    constructor
    · rintro ⟨haccepts, ht⟩
      obtain ⟨item, rfl⟩ := Literal.exists_of_accepts hcls haccepts
      refine ⟨item, rfl, haccepts, ht.imp_right ?_⟩
      rintro ⟨name, he, c, hc⟩
      exact ⟨name, by simpa [Term.app] using he, c, hc⟩
    · rintro ⟨item, rfl, haccepts, ht⟩
      refine ⟨haccepts, ht.imp_right ?_⟩
      rintro ⟨name, rfl, c, hc⟩
      exact ⟨name, rfl, c, hc⟩
  · have hasked : KnowledgeBase.classAsked? l = none := by
      rw [Option.eq_none_iff_forall_ne_some]
      intro cls h
      obtain ⟨pattern, hpattern, hcls⟩ := KnowledgeBase.classAsked?_eq_some_iff.mp h
      rw [hl pattern cls hpattern] at hcls
      cases hcls
    rw [hask, KnowledgeBase.ask_eq_matching hasked, KnowledgeBase.matching_eq hc, htold]

/-- a class below another one, with an individual that is a name and one that is not, and a question that
comes too early -/
def dogCalls : List Call :=
  [.tell (.app "instance" [.atom "rex", .atom "Dog"]), .ask (membership (.atom "?X") "Animal"),
    .tell (.app "subclass" [.atom "Dog", .atom "Animal"]),
    .tell (.app "instance" [.app "mother" [.atom "rex"], .atom "Animal"])]

/-- both are answered, and the told hierarchy is answered as it has been told -/
theorem ask_after_dog :
    Name.isVariable "Animal" = false ∧
    (ask (membership (.atom "?X") "Animal") (after dogCalls)).1.Nodup ∧
    .app "instance" [.atom "rex", .atom "Animal"] ∈
      (ask (membership (.atom "?X") "Animal") (after dogCalls)).1 ∧
    .app "instance" [.app "mother" [.atom "rex"], .atom "Animal"] ∈
      (ask (membership (.atom "?X") "Animal") (after dogCalls)).1 ∧
    (ask ⟨"subclass", [.atom "?X", .atom "?Y"]⟩ (after dogCalls)).1 =
      [.app "subclass" [.atom "Dog", .atom "Animal"]] := by
  obtain ⟨hclass, hother⟩ := ask_after dogCalls
  have hcls : Name.isVariable "Animal" = false := by decide
  obtain ⟨hnodup, hmem⟩ := hclass (.atom "?X") "Animal" hcls
  have hdog : Says dogCalls "instance" "rex" "Dog" :=
    ⟨.app "instance" [.atom "rex", .atom "Dog"], by simp [dogCalls], by cbv, rfl, rfl, rfl⟩
  have hanimal : Says dogCalls "subclass" "Dog" "Animal" :=
    ⟨.app "subclass" [.atom "Dog", .atom "Animal"], by simp [dogCalls], by cbv, rfl, rfl, rfl⟩
  have hother := hother ⟨"subclass", [.atom "?X", .atom "?Y"]⟩
    (fun pattern cls h => absurd (congrArg Literal.relation h) (by simp [membership]))
  refine ⟨hcls, hnodup, (hmem _).mpr ⟨_, rfl, by decide, .inr ⟨"rex", rfl, "Dog", hdog, .inr ?_⟩⟩,
    (hmem _).mpr ⟨_, rfl, by decide, .inl ⟨by simp [dogCalls], by cbv⟩⟩, hother.trans ?_⟩
  · exact .single hanimal
  · cbv

/-- the answers about a class are the statements that follow from told ones of two arguments each, where
individuals and classes may be any terms -/
def AnswersExact (calls : List Call) (pattern : Term) (cls : String) : Prop :=
  ∀ t, t ∈ (ask (membership pattern cls) (after calls)).1 ↔
    ∃ item, t = .app "instance" [item, .atom cls] ∧ (membership pattern cls).accepts t = true ∧
      ∃ c, Tells calls (.app "instance" [item, c]) ∧ (c = .atom cls ∨
        Relation.TransGen (fun sub sup => Tells calls (.app "subclass" [sub, sup])) c (.atom cls))

/-- a statement about an instance with one more argument -/
def datedInstance : List Call := [.tell (.app "instance" [.atom "p", .atom "B", .atom "now"])]

/-- a statement about a subclass with one more argument -/
def datedSubclass : List Call :=
  [.tell (.app "instance" [.atom "p", .atom "D"]),
    .tell (.app "subclass" [.atom "D", .atom "C", .atom "now"])]

/-- an individual that is no name, in a class below another one -/
def composedIndividual : List Call :=
  [.tell (.app "instance" [.app "f" [.atom "a"], .atom "D"]),
    .tell (.app "subclass" [.atom "D", .atom "C"])]

/-- a class that is no name, below another one -/
def composedClass : List Call :=
  [.tell (.app "instance" [.atom "p", .app "f" [.atom "a"]]),
    .tell (.app "subclass" [.app "f" [.atom "a"], .atom "C"])]

/-- Further arguments are not read, so that there may be more answers; and lists are not passed up, so
that there may be fewer. -/
theorem not_answers_exact :
    ¬ AnswersExact datedInstance (.atom "?X") "B" ∧ ¬ AnswersExact datedSubclass (.atom "?X") "C" ∧
      ¬ AnswersExact composedIndividual (.atom "?X") "C" ∧
      ¬ AnswersExact composedClass (.atom "?X") "C" := by
  refine ⟨fun h => ?_, fun h => ?_, fun h => ?_, fun h => ?_⟩
  · have hanswer : .app "instance" [.atom "p", .atom "B"] ∈
        (ask (membership (.atom "?X") "B") (after datedInstance)).1 := by
      rw [show (ask (membership (.atom "?X") "B") (after datedInstance)).1 =
        [.app "instance" [.atom "p", .atom "B"]] by cbv]
      exact List.mem_singleton_self _
    obtain ⟨item, -, -, c, ⟨htold, -⟩, -⟩ := (h _).mp hanswer
    simp [datedInstance, Term.app] at htold
  · have hanswer : .app "instance" [.atom "p", .atom "C"] ∈
        (ask (membership (.atom "?X") "C") (after datedSubclass)).1 := by
      rw [show (ask (membership (.atom "?X") "C") (after datedSubclass)).1 =
        [.app "instance" [.atom "p", .atom "C"]] by cbv]
      exact List.mem_singleton_self _
    obtain ⟨item, -, -, c, ⟨htold, -⟩, hclass⟩ := (h _).mp hanswer
    -- no statement about subclasses has two arguments
    have hnone : ∀ sub sup, ¬ Tells datedSubclass (.app "subclass" [sub, sup]) := by
      rintro sub sup ⟨hcall, -⟩
      simp [datedSubclass, Term.app] at hcall
    rcases hclass with rfl | hchain
    · simp [datedSubclass, Term.app] at htold
    · cases hchain with
      | single hstep => exact hnone _ _ hstep
      | tail _ hstep => exact hnone _ _ hstep
  · have hanswer := (h (.app "instance" [.app "f" [.atom "a"], .atom "C"])).mpr
      ⟨_, rfl, by decide, .atom "D", ⟨by simp [composedIndividual], by cbv⟩,
        .inr (.single ⟨by simp [composedIndividual], by cbv⟩)⟩
    rw [show (ask (membership (.atom "?X") "C") (after composedIndividual)).1 = [] by cbv] at hanswer
    cases hanswer
  · have hanswer := (h (.app "instance" [.atom "p", .atom "C"])).mpr
      ⟨_, rfl, by decide, .app "f" [.atom "a"], ⟨by simp [composedClass], by cbv⟩,
        .inr (.single ⟨by simp [composedClass], by cbv⟩)⟩
    rw [show (ask (membership (.atom "?X") "C") (after composedClass)).1 = [] by cbv] at hanswer
    cases hanswer

end Consulted

end OntologyPrep
