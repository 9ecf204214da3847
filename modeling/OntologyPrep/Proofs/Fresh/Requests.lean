import Mathlib.Data.List.Nodup
import OntologyPrep.Proofs.Fresh.Drawn
import OntologyPrep.Proofs.State

/-!
# Names for any stems

A supply may be asked for variables with any stem and for Skolem terms for any scope, in any order.  The
name that a request brings is its stem with the number of the request (`Supply.getElem?_answered`), and
nothing stands between the two.  Fewer requests than the counter has values have different numbers, also
where the counter starts over, so that two names are equal only if one stem is the other one with digits
behind it (`Supply.continues_of_getElem?_eq`).

* `Supply.nodup_answered`       the names are all different as long as no stem of a variable is another one
                                with digits behind it;
* `Supply.answered_repeats`     a stem and the same stem with a digit behind it can bring the same name;
* `Supply.not_nodup_answered`   variables with any stems are therefore not always different.
-/

namespace OntologyPrep

/-- the name that the term is, or that heads it -/
def Term.symbol? (t : Term) : Option String := t.name?.or t.head?

namespace Supply

/-! ## requests -/

/-- what a supply is asked for: a variable with a stem, or a Skolem term for some universals -/
inductive Request where
  | var (stem : String)
  | skolem (universals : List String)

namespace Request

/-- the answer to a request -/
def answer : Request → StateM Supply Term
  | .var stem => return .atom (← draw stem)
  | .skolem universals => Supply.skolem universals

/-- the stem of the variable or of the Skolem symbol -/
def stem : Request → String
  | .var stem => stem
  | .skolem [] => "Sk"
  | .skolem (_ :: _) => "SkFn"

theorem stem_skolem (universals : List String) :
    (skolem universals).stem = "Sk" ∨ (skolem universals).stem = "SkFn" := by
  cases universals with
  | nil => exact .inl rfl
  | cons u us => exact .inr rfl

/-- an answer brings one name and takes one number -/
theorem answer_spec (r : Request) (s : Supply) :
    (r.answer s).1.symbol? = some (r.stem ++ s.next.index) ∧ (r.answer s).2 = s.next := by
  rcases r with stem | (_ | ⟨u, us⟩) <;> exact ⟨rfl, rfl⟩

end Request

/-- the names of the variables and the Skolem symbols that some requests bring, one after another -/
def answered (requests : List Request) (s : Supply) : List (Option String) :=
  (requests.mapM Request.answer s).1.map Term.symbol?

/-- the name for each request is its stem with its number -/
theorem getElem?_answered (requests : List Request) (s : Supply) (i : Nat) :
    (answered requests s)[i]? = requests[i]?.map fun r => some (r.stem ++ (s.after (i + 1)).index) := by
  induction requests generalizing s i with
  | nil => rfl
  | cons r requests ih =>
    obtain ⟨hname, hnext⟩ := r.answer_spec s
    rw [answered, State.mapM_cons_apply, List.map_cons, hname, hnext]
    cases i with
    | zero =>
      rw [show s.after (0 + 1) = s.next by rw [← next_after, after_zero]]
      rfl
    | succ i =>
      rw [List.getElem?_cons_succ, List.getElem?_cons_succ, ← next_after]
      exact ih s.next i

theorem length_answered (requests : List Request) (s : Supply) :
    (answered requests s).length = requests.length := by
  rw [answered, List.length_map]
  exact (State.mapM_relates (R := fun _ _ => True) (I := fun _ => True)
    (fun _ _ _ _ => ⟨trivial, trivial⟩) trivial).1

/-! ## two names -/

variable {requests : List Request} {s : Supply}

/-- two of the names are equal only if the stem of one continues that of the other -/
theorem continues_of_getElem?_eq (hlen : requests.length < 2 ^ 32) {i j : Nat} (hij : i < j)
    (hj : j < requests.length) (h : (answered requests s)[i]? = (answered requests s)[j]?) :
    Continues requests[i].stem requests[j].stem ∨ Continues requests[j].stem requests[i].stem := by
  rw [getElem?_answered, getElem?_answered, List.getElem?_eq_getElem (Nat.lt_trans hij hj),
    List.getElem?_eq_getElem hj, Option.map_some, Option.map_some, Option.some_inj,
    Option.some_inj] at h
  refine continues_of_append_eq (fun he => ?_) h
  have := after_index_inj (by omega) (by omega) he
  omega

/-! ## all names -/

/-- the stem begins as a variable does -/
def HasSigil (stem : String) : Prop := stem.toList.head? = some '?' ∨ stem.toList.head? = some '@'

theorem Continues.head?_eq {stem longer : String} (h : Continues stem longer) (hstem : stem ≠ "") :
    longer.toList.head? = stem.toList.head? := by
  obtain ⟨digits, -, -, hlonger⟩ := h
  rw [hlonger]
  cases hchars : stem.toList with
  | nil => exact absurd (String.toList_inj.mp hchars) hstem
  | cons c cs => rfl

/-- a Skolem symbol can be taken neither for another one nor for a variable -/
theorem not_continues_skolem {r : Request} {universals : List String}
    (hr : ∀ stem, r = .var stem → HasSigil stem) :
    ¬ Continues r.stem (Request.skolem universals).stem ∧
      ¬ Continues (Request.skolem universals).stem r.stem := by
  have hisStem : ∀ us, IsStem (Request.skolem us).stem := by
    intro us
    rcases Request.stem_skolem us with he | he <;> exact he ▸ isStem_of_mem (by decide)
  refine ⟨fun h => h.not_isStem (hisStem universals), fun h => ?_⟩
  cases r with
  | skolem us => exact h.not_isStem (hisStem us)
  | var stem =>
    have hhead : stem.toList.head? = some 'S' := by
      rcases Request.stem_skolem universals with he | he <;>
        exact (he ▸ h).head?_eq (by decide)
    rcases hr stem rfl with hsigil | hsigil
    · exact absurd (hhead.symm.trans hsigil) (by decide)
    · exact absurd (hhead.symm.trans hsigil) (by decide)

/-- Fewer requests than the counter has values bring different names, whatever the counter starts from
and whatever is in scope for the Skolem terms, if no stem of a variable is another one with digits behind
it. -/
theorem nodup_answered (hlen : requests.length < 2 ^ 32)
    (hsigil : ∀ stem, .var stem ∈ requests → HasSigil stem)
    (hstems : ∀ stem longer, .var stem ∈ requests → .var longer ∈ requests →
      ¬ Continues stem longer) (s : Supply) : (answered requests s).Nodup := by
  have hapart : ∀ r ∈ requests, ∀ r' ∈ requests, ¬ Continues r.stem r'.stem := by
    intro r hr r' hr'
    cases r with
    | skolem us => exact (not_continues_skolem fun stem he => hsigil stem (he ▸ hr')).2
    | var stem =>
      cases r' with
      | skolem us => exact (not_continues_skolem fun stem he => hsigil stem (he ▸ hr)).1
      | var longer => exact hstems stem longer hr hr'
  refine List.nodup_iff_getElem?_ne_getElem?.mpr fun i j hij hj h => ?_
  rw [length_answered] at hj
  have hi := List.getElem_mem (Nat.lt_trans hij hj)
  rcases continues_of_getElem?_eq hlen hij hj h with h | h
  · exact hapart _ hi _ (List.getElem_mem hj) h
  · exact hapart _ (List.getElem_mem hj) _ hi h

/-- whatever the stem, the first name with a 1 behind the stem comes again as the eleventh one without -/
theorem answered_repeats (stem : String) :
    ¬ (answered (.var (stem ++ "1") :: List.replicate 10 (.var stem)) ⟨0⟩).Nodup := by
  intro h
  refine List.nodup_iff_getElem?_ne_getElem?.mp h 0 10 (by decide) ?_ ?_
  · rw [length_answered, List.length_cons, List.length_replicate]
    decide
  · rw [getElem?_answered, getElem?_answered]
    show some (some (stem ++ "1" ++ "1")) = some (some (stem ++ "11"))
    rw [String.append_assoc]
    rfl

/-- A row variable may end with a digit, so that two rows may be given the same variable. -/
theorem not_nodup_answered : ¬ ∀ (requests : List Request) (s : Supply), requests.length < 2 ^ 32 →
    (∀ stem, .var stem ∈ requests → HasSigil stem) → (answered requests s).Nodup := by
  intro h
  refine answered_repeats "?R" (h _ _ (by decide) fun stem hstem => .inl ?_)
  rcases List.mem_cons.mp hstem with he | hmem
  · rw [Request.var.inj he]
    rfl
  · rw [Request.var.inj (List.eq_of_mem_replicate hmem)]
    rfl

end Supply

end OntologyPrep
