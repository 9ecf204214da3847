import Mathlib.Data.List.Permutation
import Mathlib.Data.Nat.Find
import OntologyPrep.Proofs.Row.Weight

/-!
# The budget of written out rows

No more terms are held than the budget allows (`Term.length_expandRows_le`).  A budget that leaves
nothing out could as well have been larger, or absent: the terms and the supply of names are the same
(`Term.expandRows_of_roomier`), and some budget is large enough (`Term.exists_budget_expandRows`).  A
positive budget leaves at least one term (`Term.expandRows_ne_nil`).

`Formula.expandRowsWithin_agrees` says what this means for formulas: within a budget there are no more
formulas than it allows, and the same ones as without a budget unless some are said to be left out.
-/

namespace OntologyPrep

/-! ## lists without repetition -/

namespace Distinct

variable {α : Type} [DecidableEq α]

theorem length_add_le (xs : List α) (x : α) : (add xs x).length ≤ xs.length + 1 := by
  unfold add
  split
  · exact Nat.le_succ _
  · exact Nat.le_of_eq (by rw [List.length_append, List.length_singleton])

theorem length_addAll_le (xs ys : List α) : (addAll xs ys).length ≤ xs.length + ys.length := by
  induction ys generalizing xs with
  | nil => exact Nat.le_refl _
  | cons y ys ih =>
    have hhead := length_add_le xs y
    have htail : (addAll (add xs y) ys).length ≤ (add xs y).length + ys.length := ih (add xs y)
    show (addAll (add xs y) ys).length ≤ xs.length + (ys.length + 1)
    omega

end Distinct

namespace RowExpansion

variable {kb : KnowledgeBase} {m n : Nat} {row : String}

/-! ## no more than the budget -/

theorem size_put_le (e : RowExpansion) (t : Term) : (e.put t).size ≤ e.size + 1 := by
  unfold put size
  split
  · rw [List.length_append, List.length_singleton]
    exact Nat.le_refl _
  · have h := Distinct.length_add_le e.finished t
    show (Distinct.add e.finished t).length + e.pending.length ≤ _
    omega

theorem size_putAll_le {ts : List Term} {e : RowExpansion} (h : e.size ≤ n) :
    (putAll (some n) ts e).1.size ≤ n := by
  refine putAll_keeps (I := fun e => e.size ≤ n) (fun t _ e hroom _ => ?_) h
  have hput := size_put_le e t
  have hlt : e.size < n := by simpa [isFull] using hroom
  omega

theorem size_expandTerms_le {ts : List Term} {e : RowExpansion} (s : Supply) (h : e.size ≤ n) :
    (expandTerms kb (some n) row ts e s).1.size ≤ n :=
  expandTerms_keeps (I := fun e => e.size ≤ n) (fun _ _ _ _ he => size_putAll_le he)
    (fun _ he => he) h s

theorem size_expandRow_le {e : RowExpansion} (s : Supply) (h : e.size ≤ n) :
    (expandRow kb (some n) e row s).1.size ≤ n := by
  refine size_expandTerms_le s ?_
  unfold size at h ⊢
  simp only [List.length_nil]
  omega

theorem size_foldlM_expandRow_le {rows : List String} {e : RowExpansion} (s : Supply)
    (h : e.size ≤ n) : (rows.foldlM (expandRow kb (some n)) e s).1.size ≤ n :=
  State.foldlM_keeps (P := fun e : RowExpansion => e.size ≤ n)
    (fun _ _ _ s' he => size_expandRow_le s' he) s h

/-! ## nothing left out -/

theorem truncated_put (e : RowExpansion) (t : Term) : (e.put t).truncated = e.truncated := by
  unfold put
  split <;> rfl

theorem truncated_putAll (budget : Option Nat) (ts : List Term) (e : RowExpansion) :
    (putAll budget ts e).1.truncated = e.truncated :=
  putAll_keeps (I := fun e' => e'.truncated = e.truncated)
    (fun t _ e' _ he => (truncated_put e' t).trans he) rfl

/-- what has been left out stays left out -/
theorem truncated_expandTerms {budget : Option Nat} {ts : List Term} {e : RowExpansion} {s : Supply}
    (h : e.truncated = true) : (expandTerms kb budget row ts e s).1.truncated = true :=
  expandTerms_keeps (I := fun e => e.truncated = true)
    (fun _ _ e _ he => (truncated_putAll budget _ e).trans he) (fun _ _ => rfl) h s

theorem truncated_expandRow {budget : Option Nat} {e : RowExpansion} (s : Supply)
    (h : e.truncated = true) : (expandRow kb budget e row s).1.truncated = true :=
  truncated_expandTerms h

/-- the second budget has room wherever the first one has -/
def Roomier (budget budget' : Option Nat) : Prop :=
  ∀ e : RowExpansion, e.isFull budget' = true → e.isFull budget = true

theorem roomier_of_le (hle : m ≤ n) : Roomier (some m) (some n) := by
  intro e h
  have hfull : n ≤ e.size := of_decide_eq_true h
  exact decide_eq_true (Nat.le_trans hle hfull)

theorem roomier_none (budget : Option Nat) : Roomier budget none := by
  intro e h
  cases h

variable {budget budget' : Option Nat}

/-- all terms that find room within a budget find room within a roomier one -/
theorem putAll_of_roomier (hle : Roomier budget budget') {ts : List Term} {e : RowExpansion}
    (h : (putAll budget ts e).2 = true) : putAll budget' ts e = putAll budget ts e := by
  induction ts generalizing e with
  | nil => rfl
  | cons t ts ih =>
    rw [putAll] at h
    split at h
    · cases h
    · next hroom =>
      rw [putAll, putAll, if_neg hroom, if_neg fun hfull => hroom (hle e hfull)]
      exact ih h

theorem expandTerms_of_roomier (hle : Roomier budget budget') {ts : List Term} {e : RowExpansion}
    {s : Supply} (h : (expandTerms kb budget row ts e s).1.truncated = false) :
    expandTerms kb budget' row ts e s = expandTerms kb budget row ts e s := by
  induction ts generalizing e s with
  | nil => rfl
  | cons t ts ih =>
    rw [expandTerms_step] at h
    split at h
    · next hall =>
      rw [expandTerms_step, expandTerms_step, putAll_of_roomier hle hall, if_pos hall, if_pos hall]
      exact ih h
    · cases h

theorem foldlM_expandRow_of_roomier (hle : Roomier budget budget') {rows : List String}
    {e : RowExpansion} {s : Supply}
    (h : (rows.foldlM (expandRow kb budget) e s).1.truncated = false) :
    rows.foldlM (expandRow kb budget') e s = rows.foldlM (expandRow kb budget) e s := by
  have hlater : ∀ (rows : List String) (e : RowExpansion) (s : Supply), e.truncated = true →
      (rows.foldlM (expandRow kb budget) e s).1.truncated = true := fun rows e s he =>
    State.foldlM_keeps (P := fun e : RowExpansion => e.truncated = true)
      (fun _ _ _ s' hb => truncated_expandRow s' hb) s he
  induction rows generalizing e s with
  | nil => rfl
  | cons row rows ih =>
    rw [State.foldlM_cons_apply] at h ⊢
    have hfirst : (expandRow kb budget e row s).1.truncated = false := by
      refine Bool.eq_false_iff.mpr fun htrue => ?_
      rw [hlater rows _ _ htrue] at h
      cases h
    have hrow : expandRow kb budget' e row s = expandRow kb budget e row s :=
      expandTerms_of_roomier hle hfirst
    rw [hrow, State.foldlM_cons_apply]
    exact ih h

/-! ## enough room -/

theorem putAll_of_room {ts : List Term} {e : RowExpansion} (h : e.size + ts.length ≤ n) :
    (putAll (some n) ts e).2 = true := by
  induction ts generalizing e with
  | nil => rfl
  | cons t ts ih =>
    rw [List.length_cons] at h
    have hroom : ¬ e.isFull (some n) = true := by
      intro hfull
      have hle : n ≤ e.size := of_decide_eq_true hfull
      omega
    have hput := size_put_le e t
    rw [putAll, if_neg hroom]
    exact ih (by omega)

/-- some budget leaves out nothing while one row variable is written out -/
theorem exists_budget_expandTerms (kb : KnowledgeBase) (row : String) (ts : List Term)
    {e : RowExpansion} (s : Supply) (h : e.truncated = false) :
    ∃ n, (expandTerms kb (some n) row ts e s).1.truncated = false := by
  induction ts generalizing e s with
  | nil => exact ⟨0, h⟩
  | cons t ts ih =>
    let expanded := (replacements kb row t s).1
    let first := e.size + expanded.length
    have hfirst : (putAll (some first) expanded e).2 = true := putAll_of_room (Nat.le_refl _)
    obtain ⟨later, hlater⟩ := @ih (putAll (some first) expanded e).1 (replacements kb row t s).2
      (by rw [truncated_putAll, h])
    have hput : putAll (some (max first later)) expanded e = putAll (some first) expanded e :=
      putAll_of_roomier (roomier_of_le (Nat.le_max_left _ _)) hfirst
    refine ⟨max first later, ?_⟩
    rw [expandTerms_step, hput, if_pos hfirst,
      expandTerms_of_roomier (roomier_of_le (Nat.le_max_right first later)) hlater]
    exact hlater

/-- some budget leaves out nothing while several row variables are written out -/
theorem exists_budget_foldlM (kb : KnowledgeBase) (rows : List String) {e : RowExpansion}
    (s : Supply) (h : e.truncated = false) :
    ∃ n, (rows.foldlM (expandRow kb (some n)) e s).1.truncated = false := by
  induction rows generalizing e s with
  | nil => exact ⟨0, h⟩
  | cons row rows ih =>
    obtain ⟨first, hfirst⟩ :=
      exists_budget_expandTerms kb row e.pending (e := { e with pending := [] }) s h
    obtain ⟨later, hlater⟩ := @ih (expandRow kb (some first) e row s).1
      (expandRow kb (some first) e row s).2 hfirst
    have hrow : expandRow kb (some (max first later)) e row s = expandRow kb (some first) e row s :=
      expandTerms_of_roomier (roomier_of_le (Nat.le_max_left _ _)) hfirst
    refine ⟨max first later, ?_⟩
    rw [State.foldlM_cons_apply, hrow,
      foldlM_expandRow_of_roomier (roomier_of_le (Nat.le_max_right first later)) hlater]
    exact hlater

/-! ## something is held -/

theorem replacements_ne_nil (kb : KnowledgeBase) (row : String) (t : Term) (s : Supply) :
    (replacements kb row t s).1 ≠ [] := by
  unfold replacements
  split
  · unfold Term.expandRow
    simp only [State.bind_apply, State.pure_apply]
    rw [Ne, List.map_eq_nil_iff]
    exact rowSequences_ne_nil row _ (Nat.le_max_left 2 _) _
  · exact List.cons_ne_nil _ _

theorem holds_expandTerms_of_holds {budget : Option Nat} {ts : List Term} {e : RowExpansion}
    {s : Supply} {u : Term} (h : e.Holds u) : (expandTerms kb budget row ts e s).1.Holds u := by
  induction ts generalizing e s with
  | nil => exact h
  | cons t ts ih =>
    rw [expandTerms_step]
    split
    · exact ih (holds_putAll_of_holds h)
    · exact holds_putAll_of_holds h

/-- a term is held, or there is one to put and a budget that has room for it -/
theorem exists_holds_expandTerms (hn : n ≠ 0) {ts : List Term} {e : RowExpansion} (s : Supply)
    (h : (∃ u, e.Holds u) ∨ ts ≠ []) : ∃ u, (expandTerms kb (some n) row ts e s).1.Holds u := by
  rcases h with ⟨u, hu⟩ | hts
  · exact ⟨u, holds_expandTerms_of_holds hu⟩
  obtain ⟨t, ts, rfl⟩ := List.exists_cons_of_ne_nil hts
  obtain ⟨x, xs, hx⟩ := List.exists_cons_of_ne_nil (replacements_ne_nil kb row t s)
  have hput : ∃ u, (putAll (some n) (replacements kb row t s).1 e).1.Holds u := by
    rw [hx, putAll]
    split
    · next hfull =>
      -- a full budget is used up by terms that are held
      have hle : n ≤ e.finished.length + e.pending.length := of_decide_eq_true hfull
      rcases hfinished : e.finished with _ | ⟨u, us⟩
      · rcases hpending : e.pending with _ | ⟨u, us⟩
        · rw [hfinished, hpending] at hle
          exact absurd (Nat.le_zero.mp hle) hn
        · exact ⟨u, .inr (by simp [hpending])⟩
      · exact ⟨u, .inl (by simp [hfinished])⟩
    · exact ⟨x, holds_putAll_of_holds (holds_put_of_holds (.inr rfl))⟩
  obtain ⟨u, hu⟩ := hput
  refine ⟨u, ?_⟩
  rw [expandTerms_step]
  split
  · exact holds_expandTerms_of_holds hu
  · exact hu

theorem exists_holds_expandRow (hn : n ≠ 0) {e : RowExpansion} (s : Supply)
    (h : ∃ u, e.Holds u) : ∃ u, (expandRow kb (some n) e row s).1.Holds u := by
  refine exists_holds_expandTerms hn s ?_
  obtain ⟨u, hu | hu⟩ := h
  · exact .inl ⟨u, .inl hu⟩
  · exact .inr (List.ne_nil_of_mem hu)

end RowExpansion

/-! ## all row variables -/

namespace Term

variable {kb : KnowledgeBase} {m n : Nat}

/-- no more terms than the budget allows -/
theorem length_expandRows_le (hn : n ≠ 0) (t : Term) (s : Supply) :
    (t.expandRows kb (some n) s).1.1.length ≤ n := by
  unfold expandRows
  split
  · show 1 ≤ n
    omega
  · simp only [State.bind_apply, State.pure_apply]
    have hstart : RowExpansion.size ⟨[], [t], false⟩ ≤ n := by
      show 0 + 1 ≤ n
      omega
    exact Nat.le_trans (Distinct.length_addAll_le _ _) (RowExpansion.size_foldlM_expandRow_le s hstart)

/-- if there are row variables to write out, this is so for the budget that allows none, too -/
theorem length_expandRows_le_of_rows {t : Term} (hrows : t.rowVariables ≠ [])
    (hquoted : t.containsQuoted = false) (s : Supply) :
    (t.expandRows kb (some n) s).1.1.length ≤ n := by
  obtain ⟨row, rows, hcons⟩ := List.exists_cons_of_ne_nil hrows
  rw [expandRows, hquoted, hcons, List.isEmpty_cons, Bool.or_false, if_neg Bool.false_ne_true]
  simp only [State.bind_apply, State.pure_apply, State.foldlM_cons_apply]
  -- the term itself is no longer held when the first row variable has been written out
  have hfirst : (RowExpansion.expandRow kb (some n) ⟨[], [t], false⟩ row s).1.size ≤ n :=
    RowExpansion.size_expandTerms_le s (Nat.zero_le n)
  exact Nat.le_trans (Distinct.length_addAll_le _ _) (RowExpansion.size_foldlM_expandRow_le _ hfirst)

/-- a roomier budget makes no difference if nothing has been left out -/
theorem expandRows_of_roomier {budget budget' : Option Nat}
    (hle : RowExpansion.Roomier budget budget') {t : Term} {s : Supply}
    (h : (t.expandRows kb budget s).1.2 = false) :
    t.expandRows kb budget' s = t.expandRows kb budget s := by
  unfold expandRows at h ⊢
  split
  · rfl
  · next hsome =>
    rw [if_neg hsome] at h
    simp only [State.bind_apply, State.pure_apply] at h ⊢
    rw [RowExpansion.foldlM_expandRow_of_roomier hle h]

/-- a larger budget makes no difference if nothing has been left out -/
theorem expandRows_of_le (hle : m ≤ n) {t : Term} {s : Supply}
    (h : (t.expandRows kb (some m) s).1.2 = false) :
    t.expandRows kb (some n) s = t.expandRows kb (some m) s :=
  expandRows_of_roomier (RowExpansion.roomier_of_le hle) h

/-- some budget leaves out nothing -/
theorem exists_budget_expandRows (kb : KnowledgeBase) (t : Term) (s : Supply) :
    ∃ n, (t.expandRows kb (some n) s).1.2 = false := by
  unfold expandRows
  split
  · exact ⟨0, rfl⟩
  · simp only [State.bind_apply, State.pure_apply]
    exact RowExpansion.exists_budget_foldlM kb t.rowVariables s rfl

/-- a budget for at least one term leaves one -/
theorem expandRows_ne_nil (hn : n ≠ 0) (t : Term) (s : Supply) :
    (t.expandRows kb (some n) s).1.1 ≠ [] := by
  unfold expandRows
  split
  · exact List.cons_ne_nil _ _
  · simp only [State.bind_apply, State.pure_apply]
    have hstart : ∃ u, RowExpansion.Holds ⟨[], [t], false⟩ u := ⟨t, .inr List.mem_cons_self⟩
    have hend : ∃ u, (t.rowVariables.foldlM (RowExpansion.expandRow kb (some n))
        ⟨[], [t], false⟩ s).1.Holds u :=
      State.foldlM_keeps (P := fun e : RowExpansion => ∃ u, e.Holds u)
        (fun _ _ _ s' he => RowExpansion.exists_holds_expandRow hn s' he) s hstart
    obtain ⟨u, hu⟩ := hend
    exact List.ne_nil_of_mem (Distinct.mem_addAll.mpr hu)

end Term

/-! ## formulas -/

namespace Formula

/-- The formulas written out within a budget are no more than that, for any formula in which there are
row variables to write out.  If nothing is said to be left out, they are the formulas written out
without a budget, in the same order, and the supply of names is the same.  This is so from some budget
on, and for no smaller one. -/
theorem expandRowsWithin_agrees (kb : KnowledgeBase) {f : Formula} {t : Term} (hterm : f.term = some t)
    (hrows : t.rowVariables ≠ []) (hquoted : t.containsQuoted = false) (s : Supply) :
    (∀ n, (f.expandRowsWithin kb (some n) s).1.1.length ≤ n ∧
      ((f.expandRowsWithin kb (some n) s).1.2 = false →
        (f.expandRowsWithin kb (some n) s).1.1 = (f.expandRows kb s).1 ∧
          (f.expandRowsWithin kb (some n) s).2 = (f.expandRows kb s).2)) ∧
      ∃ room, ∀ n, (f.expandRowsWithin kb (some n) s).1.2 = false ↔ room ≤ n := by
  have hwithin : ∀ budget, f.expandRowsWithin kb budget s =
      (((t.expandRows kb budget s).1.1.map f.derive, (t.expandRows kb budget s).1.2),
        (t.expandRows kb budget s).2) := by
    intro budget
    rw [expandRowsWithin, hterm]
    rfl
  have hplain : f.expandRows kb s = ((t.expandRows kb none s).1.1.map f.derive,
      (t.expandRows kb none s).2) := by
    rw [expandRows, State.bind_apply, hwithin none]
    rfl
  rw [hplain]
  simp only [hwithin]
  refine ⟨fun n => ⟨?_, fun hall => ?_⟩, ?_⟩
  · rw [List.length_map]
    exact Term.length_expandRows_le_of_rows hrows hquoted s
  · rw [Term.expandRows_of_roomier (RowExpansion.roomier_none _) hall]
    exact ⟨rfl, rfl⟩
  · have hsome := Term.exists_budget_expandRows kb t s
    refine ⟨Nat.find hsome, fun n => ⟨fun hall => Nat.find_min' hsome hall, fun hle => ?_⟩⟩
    have hroom := Nat.find_spec hsome
    rw [Term.expandRows_of_le hle hroom]
    exact hroom

/-- a relation of any number of arguments -/
def joinTold : List Term := [.app "instance" [.atom "join", .atom "VariableArityRelation"]]

/-- the relation applied to a row variable, of one to seven variables -/
def joinedRow : Term := .app "join" [.atom "@R"]

/-- a budget that is one too small for the seven formulas, and one that is not -/
theorem expandRowsWithin_agrees_joinedRow :
    joinedRow.rowVariables ≠ [] ∧ joinedRow.containsQuoted = false ∧
      ((ofTerm joinedRow).expandRowsWithin (.tellAll .empty joinTold) (some 6) ⟨0⟩).1.2 = true ∧
      ((ofTerm joinedRow).expandRowsWithin (.tellAll .empty joinTold) (some 6) ⟨0⟩).1.1.length ≤ 6 ∧
      ((ofTerm joinedRow).expandRowsWithin (.tellAll .empty joinTold) (some 7) ⟨0⟩).1.2 = false ∧
      ((ofTerm joinedRow).expandRowsWithin (.tellAll .empty joinTold) (some 7) ⟨0⟩).1.1 =
        ((ofTerm joinedRow).expandRows (.tellAll .empty joinTold) ⟨0⟩).1 := by
  have hrows : joinedRow.rowVariables ≠ [] := by
    rw [show joinedRow.rowVariables = ["@R"] by cbv]
    exact List.cons_ne_nil _ _
  have hquoted : joinedRow.containsQuoted = false := by cbv
  have hsix : ((ofTerm joinedRow).expandRowsWithin (.tellAll .empty joinTold) (some 6) ⟨0⟩).1.2 =
      true := by cbv
  have hseven : ((ofTerm joinedRow).expandRowsWithin (.tellAll .empty joinTold) (some 7) ⟨0⟩).1.2 =
      false := by cbv
  obtain ⟨hbudget, -⟩ := expandRowsWithin_agrees (.tellAll .empty joinTold)
    (f := ofTerm joinedRow) rfl hrows hquoted ⟨0⟩
  exact ⟨hrows, hquoted, hsix, (hbudget 6).1, hseven, ((hbudget 7).2 hseven).1⟩

end Formula

end OntologyPrep
