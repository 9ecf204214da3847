import OntologyPrep.Inquiry.Basic
import OntologyPrep.Proofs.Knowledge.Consultation
import OntologyPrep.Proofs.Knowledge.Signature

/-!
# Inquiries in a knowledge base and in a consulted one

`Inquiry.result` goes through sequences and through computations per element of a list, with or without a
state or an error on top (`Inquiry.resultState`, `Inquiry.resultExcept`).

The run of an inquiry is followed question by question: a consulted knowledge base gives the answer of the
knowledge base (`Consulted.gives_answer`), so the run comes to the same value as long as each answer can be
held (`Inquiry.run_of_fits`), and to none otherwise (`Inquiry.run_eq_none`).  The answers that cannot be
held are the signatures of relations declared at a position too high (`Question.not_fits_iff`).
-/

namespace OntologyPrep

namespace Inquiry

variable {α β σ ε : Type} {kb : KnowledgeBase}

/-! ## values -/

@[simp] theorem result_pure (x : α) : (pure x : Inquiry α).result kb = x := rfl

@[simp] theorem result_bind (i : Inquiry α) (f : α → Inquiry β) :
    (i >>= f).result kb = (f (i.result kb)).result kb := by
  induction i with
  | done value => rfl
  | asking q next ih => exact ih (kb.answer q)

@[simp] theorem result_ask (l : Literal) : (ask l).result kb = kb.ask l := rfl

@[simp] theorem result_valence (relation : String) :
    (valence relation).result kb = kb.valence relation := rfl

@[simp] theorem result_signature? (relation : String) :
    (signature? relation).result kb = kb.signature? relation := rfl

@[simp] theorem result_argType? (relation : String) (position : Nat) :
    (argType? relation position).result kb = kb.argType? relation position := rfl

@[simp] theorem result_searchType (relation : String) (position : Nat) :
    (searchType relation position).result kb = kb.searchType relation position := rfl

@[simp] theorem result_isSubclass (sub sup : String) :
    (isSubclass sub sup).result kb = kb.isSubclass sub sup := rfl

@[simp] theorem result_knows (t : Term) : (knows t).result kb = kb.knows t := rfl

/-! ### lists -/

@[simp] theorem result_mapM (f : α → Inquiry β) (xs : List α) :
    (xs.mapM f).result kb = xs.map fun x => (f x).result kb := by
  induction xs with
  | nil => rfl
  | cons x xs ih => simp only [List.mapM_cons, result_bind, result_pure, ih, List.map_cons]

/-- results for each element of a list, one after another -/
theorem flatten_result_mapM {f : α → Inquiry (List β)} {g : α → List β} {xs : List α}
    (h : ∀ x ∈ xs, (f x).result kb = g x) : ((xs.mapM f).result kb).flatten = xs.flatMap g := by
  rw [result_mapM, List.map_congr_left h, List.flatMap_def]

@[simp] theorem result_foldlM (f : β → α → Inquiry β) (b : β) (xs : List α) :
    (xs.foldlM f b).result kb = xs.foldl (fun b x => (f b x).result kb) b := by
  induction xs generalizing b with
  | nil => rfl
  | cons x xs ih => rw [List.foldlM_cons, result_bind, ih, List.foldl_cons]

@[simp] theorem result_anyM (f : α → Inquiry Bool) (xs : List α) :
    (xs.anyM f).result kb = xs.any fun x => (f x).result kb := by
  induction xs with
  | nil => rfl
  | cons x xs ih =>
    rw [List.anyM, result_bind, List.any_cons]
    cases (f x).result kb with
    | true => rfl
    | false => exact ih

theorem result_filterAuxM (f : α → Inquiry Bool) (xs kept : List α) :
    (xs.filterAuxM f kept).result kb =
      (xs.filter fun x => (f x).result kb).reverse ++ kept := by
  induction xs generalizing kept with
  | nil => rfl
  | cons x xs ih =>
    rw [List.filterAuxM, result_bind, ih, List.filter_cons]
    cases (f x).result kb with
    | true => simp
    | false => simp

@[simp] theorem result_filterM (f : α → Inquiry Bool) (xs : List α) :
    (xs.filterM f).result kb = xs.filter fun x => (f x).result kb := by
  rw [List.filterM, result_bind, result_filterAuxM, List.append_nil, result_pure,
    List.reverse_reverse]

@[simp] theorem result_filterMapM (f : α → Inquiry (Option β)) (xs : List α) :
    (xs.filterMapM f).result kb = xs.filterMap fun x => (f x).result kb := by
  induction xs with
  | nil => rfl
  | cons x xs ih =>
    rw [List.filterMapM_cons, result_bind, List.filterMap_cons]
    cases (f x).result kb with
    | none => exact ih
    | some y => rw [result_bind, ih, result_pure]

/-! ### states -/

/-- the computation on a state when the knowledge base gives the answers -/
def resultState (kb : KnowledgeBase) (m : StateT σ Inquiry α) : StateM σ α :=
  fun s => (m s).result kb

@[simp] theorem resultState_pure (x : α) :
    resultState kb (pure x : StateT σ Inquiry α) = pure x := rfl

@[simp] theorem resultState_bind (m : StateT σ Inquiry α) (f : α → StateT σ Inquiry β) :
    resultState kb (m >>= f) = resultState kb m >>= fun x => resultState kb (f x) :=
  funext fun s => result_bind (m s) fun r => f r.1 r.2

@[simp] theorem resultState_silent (m : StateM σ α) : resultState kb (silent m) = m := rfl

@[simp] theorem resultState_lift (i : Inquiry α) :
    resultState kb (liftM i : StateT σ Inquiry α) = pure (i.result kb) :=
  funext fun s => result_bind i fun x => pure (x, s)

theorem resultState_mapM {f : α → StateT σ Inquiry β} {g : α → StateM σ β} {xs : List α}
    (h : ∀ x ∈ xs, resultState kb (f x) = g x) : resultState kb (xs.mapM f) = xs.mapM g := by
  induction xs with
  | nil => rfl
  | cons x xs ih =>
    simp only [List.mapM_cons, resultState_bind, resultState_pure, h x List.mem_cons_self,
      ih fun y hy => h y (List.mem_cons_of_mem _ hy)]

@[simp] theorem resultState_foldlM (f : β → α → StateT σ Inquiry β) (b : β) (xs : List α) :
    resultState kb (xs.foldlM f b) = xs.foldlM (fun b x => resultState kb (f b x)) b := by
  induction xs generalizing b with
  | nil => rfl
  | cons x xs ih => simp only [List.foldlM_cons, resultState_bind, ih]

@[simp] theorem resultState_forM (f : α → StateT σ Inquiry PUnit) (xs : List α) :
    resultState kb (xs.forM f) = xs.forM fun x => resultState kb (f x) := by
  induction xs with
  | nil => rfl
  | cons x xs ih => exact (resultState_bind _ _).trans (congrArg _ (funext fun _ => ih))

/-! ### errors -/

/-- the value or the error when the knowledge base gives the answers -/
def resultExcept (kb : KnowledgeBase) (m : ExceptT ε Inquiry α) : Except ε α := m.run.result kb

@[simp] theorem resultExcept_pure (x : α) :
    resultExcept kb (pure x : ExceptT ε Inquiry α) = pure x := rfl

@[simp] theorem resultExcept_bind (m : ExceptT ε Inquiry α) (f : α → ExceptT ε Inquiry β) :
    resultExcept kb (m >>= f) = resultExcept kb m >>= fun x => resultExcept kb (f x) := by
  rw [resultExcept, ExceptT.run_bind, result_bind, ← resultExcept]
  cases resultExcept kb m with
  | error e => rfl
  | ok x => rfl

@[simp] theorem resultExcept_lift (i : Inquiry α) :
    resultExcept kb (liftM i : ExceptT ε Inquiry α) = pure (i.result kb) :=
  result_bind i fun x => pure (Except.ok x)

theorem resultExcept_mapM {f : α → ExceptT ε Inquiry β} {g : α → Except ε β} {xs : List α}
    (h : ∀ x ∈ xs, resultExcept kb (f x) = g x) : resultExcept kb (xs.mapM f) = xs.mapM g := by
  induction xs with
  | nil => rfl
  | cons x xs ih =>
    simp only [List.mapM_cons, resultExcept_bind, resultExcept_pure, h x List.mem_cons_self,
      ih fun y hy => h y (List.mem_cons_of_mem _ hy)]

/-! ## argument counts -/

theorem result_expectedArity? (relation : String) :
    (expectedArity? relation).result kb = Term.expectedArity? kb.valence relation := by
  unfold expectedArity? Term.expectedArity?
  cases Operator.ofName? relation with
  | none => rfl
  | some o => cases o <;> rfl

theorem result_checkApplication (items : List Term) :
    resultExcept kb (checkApplication items) = Term.checkApplication kb.valence items := by
  rcases items with _ | ⟨relation | xs, args⟩
  · rfl
  · simp only [checkApplication, Term.checkApplication]
    cases Name.isVariable relation || Name.isQuoted relation || args.any Term.isRowVariable with
    | true => rfl
    | false =>
      simp only [resultExcept_bind, resultExcept_lift, result_expectedArity?]
      cases Term.expectedArity? kb.valence relation with
      | none => rfl
      | some expected => exact apply_ite (resultExcept kb) _ _ _
  · rfl

/-- an application that is counted by asking is the one that is counted -/
theorem result_checkArity (t : Term) :
    resultExcept kb (checkArity t) = t.checkArity kb.valence := by
  induction t using Term.binderInduction with
  | atom a =>
    rw [checkArity, Term.checkArity_atom]
    rfl
  | binder b ih => rw [checkArity_toTerm, Term.checkArity_toTerm, ih]
  | list xs h ih =>
    rw [checkArity_list h, Term.checkArity_list _ h, resultExcept_bind, resultExcept_mapM ih]
    exact congrArg _ (funext fun _ => result_checkApplication xs)

end Inquiry

/-! ## answers that can be held -/

namespace Question

/-- the answer that the knowledge base gives can be held -/
def Fits (kb : KnowledgeBase) (q : Question) : Prop := Answer.fits q (kb.answer q) = true

/-- only a signature can be too long, and only for a declaration at a position too high -/
theorem not_fits_iff {kb : KnowledgeBase} (hc : kb.Complete) (hs : kb.SmallCounts) {q : Question} :
    ¬ q.Fits kb ↔ ∃ relation position cls, q = .signature relation ∧
      kb.Declares relation position cls ∧ KnowledgeBase.vectorBound - 1 ≤ position := by
  constructor
  · intro h
    cases q with
    | signature relation =>
      cases hsignature : kb.signature? relation with
      | none => exact absurd (by rw [Fits, KnowledgeBase.answer, hsignature]; rfl) h
      | some signature =>
        rw [Fits, KnowledgeBase.answer, hsignature, Answer.fits, Option.all_some,
          KnowledgeBase.fits_iff hc hs hsignature] at h
        simp only [not_forall, Nat.not_lt] at h
        obtain ⟨position, cls, hd, hposition⟩ := h
        exact ⟨relation, position, cls, rfl, hd, hposition⟩
    | _ => exact absurd rfl h
  · rintro ⟨relation, position, cls, rfl, hd, hposition⟩ h
    obtain ⟨signature, hsignature⟩ := KnowledgeBase.signature?_of_declares hc hd
    rw [Fits, KnowledgeBase.answer, hsignature, Answer.fits, Option.all_some,
      KnowledgeBase.fits_iff hc hs hsignature] at h
    exact absurd (h position cls hd) (Nat.not_lt.mpr hposition)

end Question

/-! ## runs -/

namespace Consulted

variable {kb : KnowledgeBase}

/-- the answer is that of the knowledge base, whatever is remembered -/
theorem gives_answer (q : Question) : Gives kb (answer q) (kb.answer q) := by
  cases q with
  | literal l => exact gives_ask l
  | valence relation => exact gives_valence relation
  | signature relation => exact gives_signature? relation
  | isSubclass sub sup => exact gives_isSubclass sub sup
  | argType relation position => exact gives_knowledge.bind (gives_pure _)
  | searchType relation position => exact gives_knowledge.bind (gives_pure _)
  | knows t => exact gives_knowledge.bind (gives_pure _)

end Consulted

namespace Inquiry

open Consulted

variable {α : Type} {kb : KnowledgeBase} {s : Consulted}

/-- one question: the run goes on with the answer of the knowledge base, or ends without a value -/
theorem run_asking (hs : Current kb s) (q : Question) (next : q.Answer → Inquiry α) :
    ∃ s', Current kb s' ∧
      (q.Fits kb → (asking q next).run s = (next (kb.answer q)).run s') ∧
      (¬ q.Fits kb → (asking q next).run s = none) := by
  obtain ⟨hanswer, hnext⟩ := gives_answer q s hs
  refine ⟨_, hnext, fun h => ?_, fun h => ?_⟩
  · simp only [run, hanswer]
    rw [Question.Fits] at h
    rw [h]
  · simp only [run, hanswer]
    rw [Question.Fits, Bool.not_eq_true] at h
    rw [h]

/-- the run comes to the value that the answers of the knowledge base lead to, if all of them can be held -/
theorem run_of_fits (hs : Current kb s) {i : Inquiry α} (h : ∀ q ∈ i.asked kb, q.Fits kb) :
    ∃ s', Current kb s' ∧ i.run s = some (i.result kb, s') := by
  induction i generalizing s with
  | done value => exact ⟨s, hs, rfl⟩
  | asking q next ih =>
    obtain ⟨hq, hrest⟩ := List.forall_mem_cons.mp h
    obtain ⟨s', hs', hfits, -⟩ := run_asking hs q next
    rw [hfits hq]
    exact ih _ hs' hrest

/-- the first answer that cannot be held ends the run -/
theorem run_eq_none (hs : Current kb s) {i : Inquiry α} (h : ∃ q ∈ i.asked kb, ¬ q.Fits kb) :
    i.run s = none := by
  induction i generalizing s with
  | done value =>
    obtain ⟨q, hq, -⟩ := h
    cases hq
  | asking q next ih =>
    obtain ⟨s', hs', hfits, hends⟩ := run_asking hs q next
    by_cases hq : q.Fits kb
    · rw [hfits hq]
      obtain ⟨q', hmem, hq'⟩ := h
      rcases List.mem_cons.mp hmem with rfl | hmem
      · exact absurd hq hq'
      · exact ih _ hs' ⟨q', hmem, hq'⟩
    · exact hends hq

/-- the inquiry asks for the signature of a relation that is declared at a position too high for a
vector -/
def AsksOverlong (kb : KnowledgeBase) (i : Inquiry α) : Prop :=
  ∃ relation position cls, .signature relation ∈ i.asked kb ∧
    kb.Declares relation position cls ∧ KnowledgeBase.vectorBound - 1 ≤ position

theorem asksOverlong_iff (hc : kb.Complete) (hsmall : kb.SmallCounts) {i : Inquiry α} :
    i.AsksOverlong kb ↔ ∃ q ∈ i.asked kb, ¬ q.Fits kb := by
  simp only [Question.not_fits_iff hc hsmall]
  constructor
  · rintro ⟨relation, position, cls, hq, hd⟩
    exact ⟨_, hq, relation, position, cls, rfl, hd⟩
  · rintro ⟨q, hq, relation, position, cls, rfl, hd⟩
    exact ⟨relation, position, cls, hq, hd⟩

/-- After any calls, in any order, an inquiry comes to the value that the told terms lead to, unless it asks
for a signature that no vector holds. -/
theorem run_after (calls : List Call) (i : Inquiry α) :
    (i.AsksOverlong (.tellAll .empty (calls.filterMap Call.told?)) →
      i.run (after calls) = none) ∧
    (¬ i.AsksOverlong (.tellAll .empty (calls.filterMap Call.told?)) →
      ∃ s, Current (.tellAll .empty (calls.filterMap Call.told?)) s ∧
        i.run (after calls) = some (i.result (.tellAll .empty (calls.filterMap Call.told?)), s)) := by
  have hcurrent := current_after calls
  rw [asksOverlong_iff (KnowledgeBase.complete_tellAll _) (KnowledgeBase.smallCounts_tellAll _)]
  refine ⟨run_eq_none hcurrent, fun h => run_of_fits hcurrent ?_⟩
  simpa using h

end Inquiry

end OntologyPrep
