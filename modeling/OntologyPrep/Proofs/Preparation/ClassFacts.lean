import Mathlib.Data.List.Nodup
import OntologyPrep.Proofs.Preparation.Account
import OntologyPrep.Proofs.Preparation.Current

/-!
# Facts about classes are added once, and all of them

Formulas are prepared one after another with one knowledge base and one cache, and types are asked for
in between.  `TypeCache.Remembers c facts` says that the cache knows exactly which facts about classes
have been added up to now.

* `TypeCache.remembers_of_missingAmong`   listing missing facts keeps that, and lists what was missing;
* `TypeCache.keptByTypes_remembers`       looking at types keeps it, as it uses keys of its own;
* `Typed.remembers_foldl_run`             so that it holds after every run;
* `Typed.addedBy_spec`                    no fact is added twice, none that is known or a candidate,
                                          and after a formula that is no query none of its classes
                                          lacks one.
-/

namespace OntologyPrep

open State

/-! ## where a class stands -/

namespace Term

/-- the constant stands in the term where a class is wanted: behind the individual of `instance`, or
on one of the sides of `subclass` -/
def UsesClass (t : Term) (cls : String) : Prop :=
  ∃ x, app "instance" [x, .atom cls] ∈ t.subterms ∨ app "subclass" [.atom cls, x] ∈ t.subterms ∨
    app "subclass" [x, .atom cls] ∈ t.subterms

theorem atom_mem_classArguments {t : Term} {cls : String} : atom cls ∈ t.classArguments ↔
    ∃ x, t = app "instance" [x, .atom cls] ∨ t = app "subclass" [.atom cls, x] ∨
      t = app "subclass" [x, .atom cls] := by
  constructor
  · intro h
    unfold classArguments at h
    split at h
    · next x c =>
      exact ⟨x, .inl (List.mem_singleton.mp h ▸ rfl)⟩
    · next sub sup =>
      rcases List.mem_cons.mp h with rfl | h
      · exact ⟨sup, .inr (.inl rfl)⟩
      · exact ⟨sub, .inr (.inr (List.mem_singleton.mp h ▸ rfl))⟩
    · cases h
  · rintro ⟨x, rfl | rfl | rfl⟩ <;> simp [classArguments, app]

/-- the constants whose facts are looked for are the classes of the terms that can lack one -/
theorem mem_classConstants {ts : List Term} {cls : String} : cls ∈ classConstants ts ↔
    Name.needsSort cls = true ∧ ∃ t ∈ ts, t.UsesClass cls := by
  have hname : cls ∈ ((ts.flatMap subterms).flatMap classArguments).filterMap name? ↔
      ∃ t ∈ ts, ∃ u ∈ t.subterms, atom cls ∈ u.classArguments := by
    simp only [List.mem_filterMap, List.mem_flatMap, name?_eq_some_iff]
    constructor
    · rintro ⟨_, ⟨u, ⟨t, ht, hu⟩, hx⟩, rfl⟩
      exact ⟨t, ht, u, hu, hx⟩
    · rintro ⟨t, ht, u, hu, hx⟩
      exact ⟨_, ⟨u, ⟨t, ht, hu⟩, hx⟩, rfl⟩
  have huses : ∀ t : Term, (∃ u ∈ t.subterms, atom cls ∈ u.classArguments) ↔ t.UsesClass cls := by
    intro t
    constructor
    · rintro ⟨u, hu, hx⟩
      obtain ⟨x, rfl | rfl | rfl⟩ := atom_mem_classArguments.mp hx
      · exact ⟨x, .inl hu⟩
      · exact ⟨x, .inr (.inl hu)⟩
      · exact ⟨x, .inr (.inr hu)⟩
    · rintro ⟨x, hu | hu | hu⟩
      · exact ⟨_, hu, atom_mem_classArguments.mpr ⟨x, .inl rfl⟩⟩
      · exact ⟨_, hu, atom_mem_classArguments.mpr ⟨x, .inr (.inl rfl)⟩⟩
      · exact ⟨_, hu, atom_mem_classArguments.mpr ⟨x, .inr (.inr rfl)⟩⟩
  rw [classConstants, Distinct.ofList, Distinct.mem_addAll, List.mem_filter, hname]
  constructor
  · rintro (h | ⟨⟨t, ht, h⟩, hsort⟩)
    · cases h
    · exact ⟨hsort, t, ht, (huses t).mp h⟩
  · rintro ⟨hsort, t, ht, h⟩
    exact .inr ⟨⟨t, ht, (huses t).mpr h⟩, hsort⟩

end Term

/-! ## what the cache remembers -/

namespace TypeCache

theorem contains_insert (c : TypeCache) (k key : String) (result : Option String) :
    (c.insert k result).contains key = true ↔ k = key ∨ c.contains key = true := by
  simp [contains, insert, Std.TreeMap.contains_insert]

theorem sortalKey_injective : Function.Injective sortalKey := by
  intro a b h
  have hlist := congrArg String.toList h
  rw [sortalKey, sortalKey, String.toList_append, String.toList_append, String.toList_append,
    String.toList_append] at hlist
  exact String.toList_inj.mp (List.append_cancel_left (List.append_cancel_right hlist))

/-- the facts about classes that the cache remembers are the given ones -/
def Remembers (c : TypeCache) (facts : List Term) : Prop :=
  ∀ cls, c.contains (sortalKey cls) = true ↔ Term.sortalFact cls ∈ facts

variable {kb : KnowledgeBase} {c : TypeCache} {facts : List Term}

theorem remembers_empty : empty.Remembers [] := by
  intro cls
  simp [empty, contains]

theorem Remembers.insert (h : c.Remembers facts) (cls : String) (result : Option String) :
    (c.insert (sortalKey cls) result).Remembers (facts ++ [Term.sortalFact cls]) := by
  intro other
  rw [contains_insert, List.mem_append, List.mem_singleton, h other, sortalKey_injective.eq_iff,
    Term.sortalFact_injective.eq_iff, eq_comm, or_comm]

/-- looking at types remembers no fact and forgets none -/
theorem keptByTypes_remembers (kb : KnowledgeBase) (facts : List Term) :
    KeptByTypes kb fun c => c.Remembers facts := by
  intro c hc relation position cls
  rw [contains_insert, or_iff_right (argumentKey_ne_sortalKey relation position cls)]
  exact hc cls

end TypeCache

/-! ## one look for missing facts -/

/-- some facts about classes are those that some terms lack, beside the ones added before -/
structure MissingFacts (kb : KnowledgeBase) (live before facts : List Term) : Prop where
  /-- none is a repetition -/
  nodup : (before ++ facts).Nodup
  /-- each says of a class that it is one, and could not be seen already -/
  news : ∀ fact ∈ facts, (∃ cls, fact = Term.sortalFact cls) ∧ kb.knows fact = false ∧ fact ∉ live

/-- The facts listed as missing are so, none is left out, and the cache remembers them. -/
theorem TypeCache.remembers_of_missingAmong (kb : KnowledgeBase) (live : List Term)
    {classes : List String} {c : TypeCache} {before : List Term} (hc : c.Remembers before)
    (hbefore : before.Nodup) :
    (kb.missingAmong live classes c).2.Remembers
        (before ++ (kb.missingAmong live classes c).1) ∧
      MissingFacts kb live before (kb.missingAmong live classes c).1 ∧
      ∀ cls ∈ classes, kb.knows (Term.sortalFact cls) = true ∨ Term.sortalFact cls ∈ live ∨
        Term.sortalFact cls ∈ before ++ (kb.missingAmong live classes c).1 := by
  induction classes generalizing c before with
  | nil =>
    rw [KnowledgeBase.missingAmong, List.append_nil]
    refine ⟨hc, ⟨?_, fun fact hfact => absurd hfact List.not_mem_nil⟩,
      fun cls hcls => absurd hcls List.not_mem_nil⟩
    rwa [List.append_nil]
  | cons cls classes ih =>
    rw [KnowledgeBase.missingAmong]
    split
    · next hseen =>
      obtain ⟨hremembers, hmissing, hall⟩ := ih hc hbefore
      refine ⟨hremembers, hmissing, List.forall_mem_cons.mpr ⟨?_, hall⟩⟩
      rw [Bool.or_eq_true, Bool.or_eq_true, List.contains_iff_mem, hc cls] at hseen
      rcases hseen with (hlive | hknown) | hadded
      · exact .inr (.inl hlive)
      · exact .inl hknown
      · exact .inr (.inr (List.mem_append_left _ hadded))
    · next hnew =>
      rw [Bool.or_eq_true, Bool.or_eq_true, List.contains_iff_mem, hc cls, not_or, not_or,
        Bool.not_eq_true] at hnew
      obtain ⟨⟨hlive, hknown⟩, hadded⟩ := hnew
      have hnodup : (before ++ [Term.sortalFact cls]).Nodup :=
        List.nodup_append.mpr ⟨hbefore, List.nodup_singleton _, fun a ha b hb hab =>
          hadded (List.mem_singleton.mp hb ▸ hab ▸ ha)⟩
      obtain ⟨hremembers, hmissing, hall⟩ := ih (hc.insert cls (some KnowledgeBase.setOrClass)) hnodup
      have hassoc : ∀ facts : List Term, before ++ [Term.sortalFact cls] ++ facts =
          before ++ Term.sortalFact cls :: facts := fun facts => List.append_assoc _ _ _
      rw [hassoc] at hremembers hall
      refine ⟨hremembers, ⟨hassoc _ ▸ hmissing.nodup, ?_⟩, List.forall_mem_cons.mpr ⟨?_, hall⟩⟩
      · exact List.forall_mem_cons.mpr ⟨⟨⟨cls, rfl⟩, hknown, hlive⟩, hmissing.news⟩
      · exact .inr (.inr (List.mem_append_right _ List.mem_cons_self))

/-! ## one formula -/

namespace Term

variable {kb : KnowledgeBase} {settings : Settings} {query : Bool} {σ : Session} {before : List Term}

/-- the verdicts on candidates and facts come after the facts and remember none -/
theorem remembers_prepare {t : Term} {added : List Term}
    (h : (facts kb query (t.found kb settings σ).1 σ).2.cache.Remembers added) :
    (t.prepare kb settings query σ).2.cache.Remembers added := by
  have hfinals : ∀ ts : List Term, Maintains (fun σ : Session => σ.cache.Remembers added)
      (ts.mapM fun c => Session.typing (c.finalForm kb settings query)) := fun ts =>
    maintains_mapM fun c _ => Session.maintains_typing
      (maintains_finalForm (TypeCache.keptByTypes_remembers kb added) settings query c)
  rw [prepare_eq]
  refine hfinals _ _ ?_
  cases query with
  | true => exact h
  | false => exact h

/-- the facts added to the candidates of a formula are those that they lack; a query gets none -/
theorem remembers_facts (kb : KnowledgeBase) (query : Bool) (hσ : σ.cache.Remembers before)
    (hbefore : before.Nodup) (live : List Term) :
    (facts kb query live σ).2.cache.Remembers (before ++ (facts kb query live σ).1) ∧
      MissingFacts kb live before (facts kb query live σ).1 ∧
      (query = false → ∀ cls ∈ classConstants live, kb.knows (sortalFact cls) = true ∨
        sortalFact cls ∈ live ∨ sortalFact cls ∈ before ++ (facts kb query live σ).1) := by
  cases query with
  | true =>
    refine ⟨(List.append_nil before).symm ▸ hσ, ⟨(List.append_nil before).symm ▸ hbefore, ?_⟩, nofun⟩
    exact fun fact hfact => absurd hfact List.not_mem_nil
  | false =>
    obtain ⟨hremembers, hmissing, hall⟩ :=
      TypeCache.remembers_of_missingAmong kb live hσ hbefore
    exact ⟨hremembers, hmissing, fun _ => hall⟩

end Term

namespace Formula

variable {kb : KnowledgeBase} {settings : Settings} {query : Bool}

/-- the term that the formula is prepared as, unless its text is refused -/
def prepared? (f : Formula) : Option Term := if Balance.isBalanced f.text then f.term else none

theorem prepareText_of_prepared? {f : Formula} {t : Term} (h : f.prepared? = some t) :
    f.prepareText kb settings query = t.prepare kb settings query := by
  rw [prepared?, Option.ite_none_right_eq_some] at h
  exact prepareText_of_term h.1 h.2 kb settings query

theorem prepareText_of_not_prepared? {f : Formula} (h : f.prepared? = none) (σ : Session) :
    (f.prepareText kb settings query σ).2 = σ := by
  rw [prepared?] at h
  rw [prepareText]
  split
  · next hbalanced =>
    rw [if_pos hbalanced] at h
    rw [h]
    rfl
  · rfl

end Formula

/-! ## calls -/

namespace Typed

/-- the candidates of the formula that the call prepares; none if it prepares no term -/
def Call.live (s : Typed) : Call → List Term
  | .prepare supply settings _ f =>
    match f.prepared? with
    | some t => (t.found s.base settings ⟨supply, s.cache⟩).1
    | none => []
  | _ => []

/-- the facts about classes that the call adds to the candidates -/
def Call.added (s : Typed) : Call → List Term
  | .prepare supply settings query f =>
    (Term.facts s.base query (Call.live s (.prepare supply settings query f))
      ⟨supply, s.cache⟩).1
  | _ => []

/-- the call prepares a formula that is no query -/
def Call.isAssertion : Call → Bool
  | .prepare _ _ query _ => !query
  | _ => false

/-- the facts about classes that calls add, from the first call to the last -/
def addedBy : List Call → Typed → List Term
  | [], _ => []
  | call :: calls, s => call.added s ++ addedBy calls (call.run s)

theorem addedBy_append (before after : List Call) (s : Typed) :
    addedBy (before ++ after) s = addedBy before s ++ addedBy after (before.foldl Call.run s) := by
  induction before generalizing s with
  | nil => rfl
  | cons call before ih =>
    rw [List.cons_append, addedBy, ih, addedBy, List.append_assoc]
    rfl

theorem base_run_of_not_tell (s : Typed) {call : Call} (h : ∀ t, call ≠ .tell t) :
    (call.run s).base = s.base := by
  cases call with
  | tell t => exact absurd rfl (h t)
  | typeOf relation position => rfl
  | restrictTypes t => rfl
  | typesOf name t => rfl
  | prepare supply settings query f => rfl

variable {s : Typed} {before : List Term}

/-- a call remembers of the facts what it adds, and adds those that its candidates lack -/
theorem remembers_run (hs : s.cache.Remembers before) (hbefore : before.Nodup) (call : Call) :
    (call.run s).cache.Remembers (before ++ call.added s) ∧
      MissingFacts s.base (call.live s) before (call.added s) ∧
      (call.isAssertion = true → ∀ cls ∈ Term.classConstants (call.live s),
        s.base.knows (Term.sortalFact cls) = true ∨ Term.sortalFact cls ∈ call.live s ∨
          Term.sortalFact cls ∈ before ++ call.added s) := by
  have hkept := TypeCache.keptByTypes_remembers s.base before
  have hnone : MissingFacts s.base (call.live s) before [] :=
    ⟨(List.append_nil before).symm ▸ hbefore, fun fact hfact => absurd hfact List.not_mem_nil⟩
  cases call with
  | tell t => exact ⟨(List.append_nil before).symm ▸ hs, hnone, nofun⟩
  | typeOf relation position =>
    exact ⟨(List.append_nil before).symm ▸
      KnowledgeBase.maintains_typeOf hkept relation position _ hs, hnone, nofun⟩
  | restrictTypes t =>
    exact ⟨(List.append_nil before).symm ▸ Term.maintains_restrictTypes hkept t _ hs, hnone, nofun⟩
  | typesOf name t =>
    exact ⟨(List.append_nil before).symm ▸ Term.maintains_typesOf hkept name t _ hs, hnone, nofun⟩
  | prepare supply settings query f =>
    obtain ⟨hremembers, hmissing, hall⟩ := Term.remembers_facts s.base query
      (σ := ⟨supply, s.cache⟩) hs hbefore (Call.live s (.prepare supply settings query f))
    refine ⟨?_, hmissing, fun hquery => hall (Bool.not_eq_true' query ▸ hquery)⟩
    show ((f.prepareText s.base settings query ⟨supply, s.cache⟩).2.cache).Remembers
      (before ++ (Term.facts s.base query (Call.live s (.prepare supply settings query f))
        ⟨supply, s.cache⟩).1)
    cases hterm : f.prepared? with
    | some t =>
      have hlive : Call.live s (.prepare supply settings query f) =
          (t.found s.base settings ⟨supply, s.cache⟩).1 := by rw [Call.live, hterm]
      rw [Formula.prepareText_of_prepared? hterm]
      rw [hlive] at hremembers ⊢
      exact Term.remembers_prepare hremembers
    | none =>
      have hlive : Call.live s (.prepare supply settings query f) = [] := by rw [Call.live, hterm]
      have hadded : (Term.facts s.base query [] ⟨supply, s.cache⟩).1 = [] := by cases query <;> rfl
      rw [Formula.prepareText_of_not_prepared? hterm, hlive, hadded, List.append_nil]
      exact hs

/-- A run without telling remembers the facts that it has added, and adds none twice. -/
theorem remembers_foldl_run {calls : List Call} (hcalls : ∀ t, .tell t ∉ calls)
    (hs : s.cache.Remembers before) (hbefore : before.Nodup) :
    (calls.foldl Call.run s).base = s.base ∧
      (calls.foldl Call.run s).cache.Remembers (before ++ addedBy calls s) ∧
      (before ++ addedBy calls s).Nodup := by
  induction calls generalizing s before with
  | nil =>
    rw [addedBy, List.append_nil]
    exact ⟨rfl, hs, hbefore⟩
  | cons call calls ih =>
    obtain ⟨hremembers, hmissing, -⟩ := remembers_run hs hbefore call
    obtain ⟨hbase, hlast, hnodup⟩ :=
      ih (fun t ht => hcalls t (List.mem_cons_of_mem _ ht)) hremembers hmissing.nodup
    have hcall : (call.run s).base = s.base :=
      base_run_of_not_tell s fun t ht => hcalls t (ht ▸ List.mem_cons_self)
    rw [List.append_assoc] at hlast hnodup
    exact ⟨hbase.trans hcall, hlast, hnodup⟩

/-- Formulas are prepared with a knowledge base that is told nothing in the meantime, in any order,
with any settings, as queries or not, and types are asked for in between.  Then no fact about a class
is added twice, and none that the knowledge base has or that is among the candidates of its own
formula.  After a formula that is no query, every constant that stands in a candidate where a class is
wanted has its fact: told, among the candidates, or added by now. -/
theorem addedBy_spec (kb : KnowledgeBase) {calls : List Call} (hcalls : ∀ t, .tell t ∉ calls) :
    (addedBy calls ⟨kb, .empty⟩).Nodup ∧
      ∀ before call, before ++ [call] <+: calls →
        let s := before.foldl Call.run ⟨kb, .empty⟩
        (∀ fact ∈ call.added s,
          (∃ cls, fact = Term.sortalFact cls) ∧ kb.knows fact = false ∧ fact ∉ call.live s) ∧
        (call.isAssertion = true → ∀ t ∈ call.live s, ∀ cls, t.UsesClass cls →
          cls ≠ KnowledgeBase.setOrClass → Name.isVariable cls = false → Name.isQuoted cls = false →
            kb.knows (Term.sortalFact cls) = true ∨ Term.sortalFact cls ∈ call.live s ∨
              Term.sortalFact cls ∈ addedBy (before ++ [call]) ⟨kb, .empty⟩) := by
  refine ⟨(remembers_foldl_run (s := ⟨kb, .empty⟩) hcalls TypeCache.remembers_empty
    List.nodup_nil).2.2, fun before call hbegin => ?_⟩
  have hbefore : ∀ t, .tell t ∉ before := fun t ht =>
    hcalls t (hbegin.subset (List.mem_append_left _ ht))
  obtain ⟨hbase, hremembers, hnodup⟩ := remembers_foldl_run (s := ⟨kb, .empty⟩) hbefore
    TypeCache.remembers_empty List.nodup_nil
  obtain ⟨-, hmissing, hall⟩ := remembers_run hremembers hnodup call
  rw [hbase] at hmissing hall
  refine ⟨hmissing.news, fun hassertion t ht cls huses hsort hvariable hquoted => ?_⟩
  have hneeds : Name.needsSort cls = true := by
    simp [Name.needsSort, hsort, hvariable, hquoted]
  have hfact := hall hassertion cls (Term.mem_classConstants.mpr ⟨hneeds, t, ht, huses⟩)
  rwa [addedBy_append, addedBy, addedBy, List.append_nil]

/-- two statements about one class, and a question for a type between them -/
def classCalls : List Call :=
  [.prepare ⟨0⟩ {} false (.ofText "(instance a Human)"), .typeOf "p" 1,
    .prepare ⟨0⟩ { holdsPrefix := true } false (.ofText "(instance b Human)")]

/-- the class that two statements share gets its fact, and it gets it once -/
theorem addedBy_spec_shared :
    (addedBy classCalls ⟨.empty, .empty⟩).Nodup ∧
      Term.sortalFact "Human" ∈ addedBy classCalls ⟨.empty, .empty⟩ := by
  let statement : Term := .app "instance" [.atom "b", .atom "Human"]
  have hcalls : ∀ t, .tell t ∉ classCalls := by simp [classCalls]
  obtain ⟨hnodup, hbegins⟩ := addedBy_spec .empty hcalls
  obtain ⟨-, hclasses⟩ := hbegins (classCalls.take 2) _ List.prefix_rfl
  have hterm : (Formula.ofText "(instance b Human)").prepared? = some statement := by cbv
  have hcandidates : ∀ cache, Term.found .empty { holdsPrefix := true } statement ⟨⟨0⟩, cache⟩ =
      ([statement], []) := by
    intro cache
    rw [Term.found]
    cbv
  -- the statement is its own only candidate, whatever has been remembered before
  have hlive : Call.live ((classCalls.take 2).foldl Call.run ⟨.empty, .empty⟩)
      (.prepare ⟨0⟩ { holdsPrefix := true } false (.ofText "(instance b Human)")) = [statement] := by
    rw [Call.live, hterm]
    exact congrArg Prod.fst (hcandidates _)
  rw [hlive] at hclasses
  have hfact := hclasses rfl statement List.mem_cons_self "Human"
    ⟨.atom "b", .inl (Term.self_mem_subterms statement)⟩ (by decide) (by decide) (by decide)
  have hunknown : KnowledgeBase.empty.knows (Term.sortalFact "Human") = false := by cbv
  have hother : Term.sortalFact "Human" ∉ [statement] := by decide
  exact ⟨hnodup, (hfact.resolve_left (Bool.eq_false_iff.mp hunknown)).resolve_left hother⟩

end Typed

end OntologyPrep
