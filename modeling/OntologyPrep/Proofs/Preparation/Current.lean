import Mathlib.Data.List.Induction
import OntologyPrep.Preparation.Basic
import OntologyPrep.Proofs.Sort.Declared
import OntologyPrep.Proofs.Sort.Kept

/-!
# Whether remembered types are the current ones

`Typed` is a knowledge base with the types that are remembered while terms are told and types are asked
for, in any order.

* `Typed.typeOf_after`            the type that is given for an argument has been the right one at some
                                  moment: nothing is ever remembered but what a search has found;
* `Typed.current_tell_iff`        remembered types stay the current ones exactly if the term that is told
                                  decides none of them;
* `Typed.typeOf_after_loading`    they stay so if all declarations are told before the first question;
* `Typed.not_current_after`       and need not if not, since telling forgets nothing.
-/

namespace OntologyPrep

open State

/-! ## preparing -/

section

variable {kb : KnowledgeBase} {I : TypeCache → Prop}

theorem KnowledgeBase.maintains_missingAmong (h : TypeCache.Kept kb I) (live : List Term)
    (classes : List String) : Maintains I (kb.missingAmong live classes) := by
  induction classes with
  | nil => exact fun _ hc => hc
  | cons cls classes ih =>
    intro c hc
    rw [missingAmong]
    split
    · exact ih c hc
    · exact ih _ (h.sortal c hc cls)

theorem Session.maintains_typing {α : Type} {m : StateM TypeCache α} (hm : Maintains I m) :
    Maintains (fun s => I s.cache) (typing m) := fun s hs => hm s.cache hs

theorem Session.maintains_drawing {α : Type} (m : StateM Supply α) :
    Maintains (fun s => I s.cache) (drawing m) := fun _ hs => hs

theorem Term.maintains_finalForm (h : TypeCache.KeptByTypes kb I) (settings : Settings) (query : Bool)
    (t : Term) : Maintains I (t.finalForm kb settings query) := by
  unfold finalForm
  split
  · exact (maintains_restrictTypes h t).bind fun _ => maintains_pure _
  · exact maintains_pure _

theorem Term.maintains_prepare (h : TypeCache.Kept kb I) (settings : Settings) (query : Bool)
    (t : Term) : Maintains (fun s => I s.cache) (t.prepare kb settings query) := by
  refine (Session.maintains_drawing _).bind fun found => ?_
  have hfinals : ∀ cs : List Term, Maintains (fun s => I s.cache)
      (cs.mapM fun c => Session.typing (c.finalForm kb settings query)) := fun cs =>
    maintains_mapM fun c _ =>
      Session.maintains_typing (maintains_finalForm h.keptByTypes settings query c)
  have hfacts := Session.maintains_typing
    (KnowledgeBase.maintains_missingAmong h found.1 (classConstants found.1))
  simp only
  split
  · exact (maintains_pure []).bind fun _ => (hfinals _).bind fun _ => maintains_pure _
  · exact hfacts.bind fun _ => (hfinals _).bind fun _ => maintains_pure _

namespace Formula

theorem maintains_prepareText (h : TypeCache.Kept kb I) (settings : Settings) (query : Bool)
    (f : Formula) : Maintains (fun s => I s.cache) (f.prepareText kb settings query) := by
  unfold prepareText
  split
  · split
    · exact Term.maintains_prepare h settings query _
    · exact maintains_pure _
  · exact maintains_pure _

/-- preparing a formula remembers nothing but found types and facts about classes -/
theorem maintains_prepare (h : TypeCache.Kept kb I) (settings : Settings) (query : Bool) (f : Formula) :
    Maintains (fun s => I s.cache) (f.prepare kb settings query) :=
  (maintains_prepareText h settings query f).bind fun _ => maintains_pure _

end Formula

end

/-! ## where remembered types come from -/

namespace TypeCache

/-- the two kinds of keys are told apart by how they start -/
theorem argumentKey_ne_sortalKey (relation : String) (position : Nat) (cls : String) :
    argumentKey relation position ≠ sortalKey cls := by
  intro h
  have hlist := congrArg String.toList h
  rw [argumentKey, sortalKey] at hlist
  simp at hlist

/-- every remembered type of an argument is what a search finds in a knowledge base of a kind -/
def From (P : KnowledgeBase → Prop) (c : TypeCache) : Prop :=
  ∀ relation position result, c.get? (argumentKey relation position) = some result →
    ∃ kb, P kb ∧ result = kb.searchType relation position

variable {P Q : KnowledgeBase → Prop} {kb : KnowledgeBase} {c : TypeCache}

theorem from_empty : empty.From P := by
  intro relation position result h
  simp [empty, get?] at h

theorem From.imp (h : c.From P) (hPQ : ∀ kb, P kb → Q kb) : c.From Q := by
  intro relation position result hget
  obtain ⟨kb, hkb, hresult⟩ := h relation position result hget
  exact ⟨kb, hPQ kb hkb, hresult⟩

/-- asking a knowledge base of the kind for types remembers only such types -/
theorem kept_from (hkb : P kb) : Kept kb (From P) where
  argument c hc relation position r p result h := by
    rw [get?_insert] at h
    split at h
    · next he =>
      obtain ⟨rfl, rfl⟩ := argumentKey_inj he
      exact ⟨kb, hkb, (Option.some.inj h).symm⟩
    · exact hc r p result h
  sortal c hc cls r p result h := by
    rw [get?_insert, if_neg fun he => argumentKey_ne_sortalKey r p cls he.symm] at h
    exact hc r p result h

end TypeCache

/-! ## telling and asking in any order -/

/-- a knowledge base and the types that are remembered with it -/
structure Typed where
  base : KnowledgeBase
  cache : TypeCache

namespace Typed

/-- nothing told and nothing asked -/
def start : Typed := ⟨.empty, .empty⟩

/-- the type that is given for an argument -/
def typeOf (s : Typed) (relation : String) (position : Nat) : Option String :=
  (s.base.typeOf relation position s.cache).1

/-- a term told, or a question for types: for one argument, for the guards of a formula, for the types
of a variable in a formula, or for all that is needed to prepare a formula -/
inductive Call where
  | tell (t : Term)
  | typeOf (relation : String) (position : Nat)
  | restrictTypes (t : Term)
  | typesOf (name : String) (t : Term)
  | prepare (supply : Supply) (settings : Settings) (query : Bool) (f : Formula)

/-- a call carried out, its answer left aside; telling leaves the cache alone -/
def Call.run (s : Typed) : Call → Typed
  | .tell t => { s with base := s.base.tell t }
  | .typeOf relation position =>
    { s with cache := (s.base.typeOf relation position s.cache).2 }
  | .restrictTypes t => { s with cache := (t.restrictTypes s.base s.cache).2 }
  | .typesOf name t => { s with cache := (t.typesOf s.base name s.cache).2 }
  | .prepare supply settings query f =>
    { s with cache := (f.prepare s.base settings query ⟨supply, s.cache⟩).2.cache }

/-- what there is after some calls -/
def after (calls : List Call) : Typed := calls.foldl Call.run start

/-- the term that a call tells -/
def Call.told? : Call → Option Term
  | .tell t => some t
  | _ => none

theorem base_run (s : Typed) (call : Call) :
    (call.run s).base = s.base.tellAll call.told?.toList := by
  cases call <;> rfl

theorem base_foldl_run (calls : List Call) (s : Typed) :
    (calls.foldl Call.run s).base = s.base.tellAll (calls.filterMap Call.told?) := by
  induction calls generalizing s with
  | nil => rfl
  | cons call calls ih =>
    rw [List.foldl_cons, ih, base_run, List.filterMap_cons]
    cases call.told? <;> rfl

/-- the told terms are those of the calls -/
theorem base_after (calls : List Call) :
    (after calls).base = .tellAll .empty (calls.filterMap Call.told?) := base_foldl_run calls start

theorem after_concat (calls : List Call) (call : Call) :
    after (calls ++ [call]) = call.run (after calls) := List.foldl_append

/-- a call remembers nothing but what is found in the knowledge base that it meets -/
theorem from_run {P : KnowledgeBase → Prop} {s : Typed} (hs : s.cache.From P) (hbase : P s.base)
    (call : Call) : (call.run s).cache.From P := by
  have hkept := TypeCache.kept_from hbase
  cases call with
  | tell t => exact hs
  | typeOf relation position =>
    exact KnowledgeBase.maintains_typeOf hkept.keptByTypes relation position _ hs
  | restrictTypes t => exact Term.maintains_restrictTypes hkept.keptByTypes t _ hs
  | typesOf name t => exact Term.maintains_typesOf hkept.keptByTypes name t _ hs
  | prepare supply settings query f => exact Formula.maintains_prepare hkept settings query f _ hs

/-- a type that is given is remembered or found now -/
theorem typeOf_of_from {P : KnowledgeBase → Prop} {s : Typed} (hs : s.cache.From P) (hbase : P s.base)
    (relation : String) (position : Nat) :
    ∃ kb, P kb ∧ s.typeOf relation position = kb.searchType relation position := by
  have htype : s.typeOf relation position =
      (s.cache.get? (TypeCache.argumentKey relation position)).getD
        (s.base.searchType relation position) := KnowledgeBase.typeIn_eq ..
  cases hget : s.cache.get? (TypeCache.argumentKey relation position) with
  | some result =>
    obtain ⟨kb, hkb, hresult⟩ := hs relation position result hget
    exact ⟨kb, hkb, by rw [htype, hget, Option.getD_some, hresult]⟩
  | none => exact ⟨s.base, hbase, by rw [htype, hget, Option.getD_none]⟩

/-- all that is remembered after some calls was found after the first ones of them -/
theorem from_after (calls : List Call) : (after calls).cache.From fun kb =>
    ∃ before, before <+: calls ∧ kb = (after before).base := by
  induction calls using List.reverseRecOn with
  | nil => exact TypeCache.from_empty
  | append_singleton calls call ih =>
    have hcalls : calls <+: calls ++ [call] := List.prefix_append calls [call]
    rw [after_concat]
    refine from_run (ih.imp ?_) ⟨calls, hcalls, rfl⟩ call
    rintro kb ⟨before, hbefore, hkb⟩
    exact ⟨before, hbefore.trans hcalls, hkb⟩

/-- After any calls, in any order, the type that is given for an argument is the one that the
statements decide that had been told at some moment up to now. -/
theorem typeOf_after (calls : List Call) (relation : String) (position : Nat) :
    ∃ before, before <+: calls ∧ (after calls).typeOf relation position =
      (after before).base.searchType relation position := by
  obtain ⟨kb, ⟨before, hbefore, rfl⟩, htype⟩ :=
    typeOf_of_from (from_after calls) ⟨calls, List.prefix_rfl, rfl⟩ relation position
  exact ⟨before, hbefore, htype⟩

/-! ## current types -/

/-- the remembered types are those that the told statements decide -/
def Current (s : Typed) : Prop := s.cache.From fun kb => kb.searchType = s.base.searchType

theorem Current.typeOf_eq {s : Typed} (hs : s.Current) (relation : String) (position : Nat) :
    s.typeOf relation position = s.base.searchType relation position := by
  obtain ⟨kb, hkb, htype⟩ := typeOf_of_from hs rfl relation position
  rw [htype, hkb]

/-- A term that is told leaves the remembered types the current ones exactly if it decides none of
them. -/
theorem current_tell_iff {s : Typed} (hs : s.Current) (t : Term) : (Call.run s (.tell t)).Current ↔
    ∀ relation position, (s.cache.get? (TypeCache.argumentKey relation position)).isSome = true →
      (s.base.tell t).searchType relation position = s.base.searchType relation position := by
  constructor
  · intro h relation position hsome
    obtain ⟨result, hget⟩ := Option.isSome_iff_exists.mp hsome
    obtain ⟨kb, hkb, hresult⟩ := hs relation position result hget
    obtain ⟨kb', hkb', hresult'⟩ := h relation position result hget
    have hsame : kb'.searchType relation position = kb.searchType relation position := by
      rw [← hresult', hresult]
    rwa [hkb, hkb'] at hsame
  · intro h relation position result hget
    obtain ⟨kb, hkb, hresult⟩ := hs relation position result hget
    have hsame := h relation position (Option.isSome_of_eq_some hget)
    exact ⟨s.base.tell t, rfl, by rw [hresult, hkb, hsame]⟩

/-- a call keeps the remembered types the current ones, unless it tells a declaration -/
theorem Current.run {s : Typed} (hs : s.Current) (hbase : s.base.Faithful) {call : Call}
    (hcall : ∀ t, call = .tell t → t.isDeclaration = false) : (call.run s).Current := by
  have hrun := from_run hs rfl call
  cases call with
  | tell t =>
    refine hrun.imp fun kb hkb => ?_
    rw [hkb, base_run]
    exact (hbase.searchType_tell (hcall t rfl)).symm
  | typeOf relation position => exact hrun
  | restrictTypes t => exact hrun
  | typesOf name t => exact hrun
  | prepare supply settings query f => exact hrun

theorem Current.foldl_run {s : Typed} (hs : s.Current) (hbase : s.base.Faithful) {calls : List Call}
    (hcalls : ∀ t, .tell t ∈ calls → t.isDeclaration = false) : (calls.foldl Call.run s).Current := by
  induction calls generalizing s with
  | nil => exact hs
  | cons call calls ih =>
    refine ih (hs.run hbase fun t ht => hcalls t (ht ▸ List.mem_cons_self)) ?_
      fun t ht => hcalls t (List.mem_cons_of_mem _ ht)
    rw [base_run]
    exact hbase.tellAll _

theorem foldl_run_tell (terms : List Term) (s : Typed) :
    (terms.map .tell).foldl Call.run s = { s with base := s.base.tellAll terms } := by
  induction terms generalizing s with
  | nil => rfl
  | cons t terms ih =>
    rw [List.map_cons, List.foldl_cons, ih]
    rfl

/-- If nothing is asked while terms are loaded, and no declaration is told from then on, every type that
is given is the one that the terms told so far decide. -/
theorem typeOf_after_loading {loading : List Term} {calls : List Call}
    (hcalls : ∀ t, .tell t ∈ calls → t.isDeclaration = false) (relation : String) (position : Nat) :
    (after (loading.map .tell ++ calls)).typeOf relation position =
      (KnowledgeBase.empty.tellAll (loading ++ calls.filterMap Call.told?)).searchType relation
        position := by
  -- nothing has been asked while terms were loaded
  have hloaded : Current { start with base := start.base.tellAll loading } := TypeCache.from_empty
  have hcurrent : Current (after (loading.map .tell ++ calls)) := by
    rw [after, List.foldl_append, foldl_run_tell]
    exact hloaded.foldl_run (KnowledgeBase.faithful_tellAll loading) hcalls
  have htold : (loading.map Call.tell).filterMap Call.told? = loading := by
    rw [List.filterMap_map]
    exact List.filterMap_some
  rw [hcurrent.typeOf_eq, base_after, List.filterMap_append, htold]

/-- The type of an argument that has been asked for before its declaration is told stays unknown. -/
theorem not_current_after : ¬ ∀ (calls : List Call) (relation : String) (position : Nat),
    (after calls).typeOf relation position =
      (after calls).base.searchType relation position := by
  intro h
  have hstale := h [.typeOf "p" 1, .tell (.app "domain" [.atom "p", .atom "1", .atom "Human"])] "p" 1
  have hgiven : (after [.typeOf "p" 1,
      .tell (.app "domain" [.atom "p", .atom "1", .atom "Human"])]).typeOf "p" 1 = none := by cbv
  have hdeclared : (after [.typeOf "p" 1,
      .tell (.app "domain" [.atom "p", .atom "1", .atom "Human"])]).base.searchType "p" 1 =
        some "Human" := by cbv
  rw [hgiven, hdeclared] at hstale
  cases hstale

end Typed

end OntologyPrep
