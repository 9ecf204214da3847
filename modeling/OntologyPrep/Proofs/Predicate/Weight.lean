import OntologyPrep.Proofs.Predicate.Rows
import OntologyPrep.Proofs.State
import OntologyPrep.Proofs.Term.Weight

/-!
# Instances are lighter

A variable that a clue is about is free in the formula or bound in it (`Term.mayAssign_of_clue`), so
that the first row takes weight away, and no later row gives any back
(`Term.weight_of_instantiated`).
-/

namespace OntologyPrep

namespace Term

/-- the variable is free in the term, or a quantified formula in it binds the variable -/
def MayAssign (t : Term) (name : String) : Prop :=
  name ∈ t.freeVariables ∨ ∀ value, assignBound? name value t ≠ none

theorem assignBoundIn?_ne_none {name : String} {value : Term} {xs : List Term} {x : Term}
    (hx : x ∈ xs) (h : assignBound? name value x ≠ none) : assignBoundIn? name value xs ≠ none := by
  induction xs with
  | nil => cases hx
  | cons y ys ih =>
    rw [assignBoundIn?]
    rcases List.mem_cons.mp hx with rfl | hx
    · obtain ⟨x', hx'⟩ := Option.ne_none_iff_exists'.mp h
      rw [hx']
      simp
    · split
      · simp
      · simpa using ih hx

theorem mayAssign_list {xs : List Term} (hb : (list xs).binder? = none) {x : Term} (hx : x ∈ xs)
    {name : String} (h : x.MayAssign name) : (list xs).MayAssign name := by
  rcases h with h | h
  · exact .inl ((mem_freeVariables_list hb).mpr ⟨x, hx, h⟩)
  · refine .inr fun value => ?_
    rw [assignBound?, hb]
    simpa using assignBoundIn?_ne_none hx (h value)

theorem mayAssign_binder {b : Binder} {name : String} (h : b.body.MayAssign name) :
    b.toTerm.MayAssign name := by
  by_cases hn : name ∈ b.names
  · refine .inr fun value => ?_
    have hb := binder?_toTerm b
    rw [Binder.toTerm] at hb ⊢
    rw [assignBound?, hb]
    simp [Option.filter, hn]
  · rcases h with h | h
    · exact .inl (mem_freeVariables_binder.mpr ⟨h, hn⟩)
    · refine .inr fun value => ?_
      have hb := binder?_toTerm b
      have hin : assignBoundIn? name value [.atom b.quantifier.name, b.entries, b.body] ≠ none :=
        assignBoundIn?_ne_none (by simp) (h value)
      rw [Binder.toTerm] at hb ⊢
      rw [assignBound?, hb]
      simpa [Option.filter, hn] using hin

theorem mayAssign_atom {a : String} (h : Name.isVariable a = true) : (atom a).MayAssign a :=
  .inl (mem_freeVariables_atom.mpr ⟨h, rfl⟩)

theorem of_mem_argumentClues {kb : KnowledgeBase} {relation : String} {args : List Term}
    {name : String} {clue : PredicateClue} (h : (name, clue) ∈ argumentClues kb relation args) :
    Name.isVariable name = true ∧ .atom name ∈ args := by
  unfold argumentClues at h
  split at h
  · cases h
  · obtain ⟨⟨arg, position⟩, harg, hclue⟩ := List.mem_filterMap.mp h
    simp only at hclue
    split at hclue
    · next a =>
      split at hclue
      · next hv =>
        cases hclue
        rw [Bool.and_eq_true] at hv
        exact ⟨hv.1, (List.mem_zipIdx harg).2.2 ▸ List.getElem_mem _⟩
      · cases hclue
    · cases hclue

theorem of_mem_appliedClue {t : Term} {name : String} {clue : PredicateClue}
    (h : (name, clue) ∈ t.appliedClue) : Name.isVariable name = true ∧ t = .atom name := by
  obtain ⟨a, ha, he⟩ := List.mem_map.mp h
  cases he
  obtain ⟨hn, hv⟩ := Option.filter_eq_some_iff.mp (Option.mem_toList.mp ha)
  exact ⟨hv, name?_eq_some_iff.mp hn⟩

/-- a clue of an application is about its head or about arguments of its relation, or it comes from one
of the arguments -/
theorem of_mem_predicateClues_list {kb : KnowledgeBase} {head : String} {args : List Term}
    {c : String × PredicateClue} (hb : (list (.atom head :: args)).binder? = none)
    (h : c ∈ (list (.atom head :: args)).predicateClues kb) :
    c = (head, .head) ∧ Name.isVariable head = true ∨ c ∈ argumentClues kb head args ∨
      ∃ x ∈ args, c ∈ x.appliedClue ∨ c ∈ x.predicateClues kb := by
  have hargs : ∀ {xs : List Term}, xs ⊆ args → c ∈ xs.flatMap (predicateClues kb) →
      ∃ x ∈ args, c ∈ x.appliedClue ∨ c ∈ x.predicateClues kb := by
    intro xs hxs hmem
    obtain ⟨x, hx, hclue⟩ := List.mem_flatMap.mp hmem
    exact ⟨x, hxs hx, .inr hclue⟩
  have hall := fun hmem => hargs (List.Subset.refl args) hmem
  rw [predicateClues_list kb hb] at h
  split at h
  case isTrue hvariable =>
    rcases List.mem_cons.mp h with h | h
    · exact .inl ⟨h, hvariable⟩
    · exact .inr (.inr (hall h))
  split at h
  case isTrue =>
    match args with
    | [] | [_] => cases h
    | _ :: formula :: _ => exact .inr (.inr ⟨formula, by simp, .inr h⟩)
  split at h
  case isTrue =>
    match args with
    | [] => cases h
    | relation :: others =>
      rcases List.mem_append.mp h with h | h
      · exact .inr (.inr ⟨relation, List.mem_cons_self, .inl h⟩)
      · exact .inr (.inr (hargs (List.subset_cons_self relation others) h))
  split at h
  case isTrue => exact .inr (.inr (hall h))
  case isFalse =>
    rcases List.mem_append.mp h with h | h
    · exact .inr (.inl h)
    · exact .inr (.inr (hall h))

/-- a variable with a clue may be assigned -/
theorem mayAssign_of_clue {kb : KnowledgeBase} {t : Term} {name : String} {clue : PredicateClue}
    (h : (name, clue) ∈ t.predicateClues kb) : t.MayAssign name := by
  induction t using binderInduction with
  | atom a =>
    rw [predicateClues_atom] at h
    cases h
  | binder b ih =>
    rw [predicateClues_toTerm] at h
    exact mayAssign_binder (ih h)
  | list xs hb ih =>
    have hvariable : .atom name ∈ xs → Name.isVariable name = true → (list xs).MayAssign name :=
      fun hx hv => mayAssign_list hb hx (mayAssign_atom hv)
    have hpart : ∀ x ∈ xs, (name, clue) ∈ x.predicateClues kb → (list xs).MayAssign name :=
      fun x hx hc => mayAssign_list hb hx (ih x hx hc)
    match xs with
    | [] =>
      rw [predicateClues] at h
      cases h
    | .list ys :: args =>
      rw [predicateClues] at h
      rcases List.mem_append.mp h with h | h
      · exact hpart _ List.mem_cons_self h
      · obtain ⟨y, hy, hclue⟩ := List.mem_flatMap.mp h
        exact hpart y (List.mem_cons_of_mem _ hy) hclue
    | .atom head :: args =>
      rcases of_mem_predicateClues_list hb h with ⟨he, hv⟩ | h | ⟨x, hx, h | h⟩
      · cases he
        exact hvariable List.mem_cons_self hv
      · obtain ⟨hv, hmem⟩ := of_mem_argumentClues h
        exact hvariable (List.mem_cons_of_mem _ hmem) hv
      · obtain ⟨hv, rfl⟩ := of_mem_appliedClue h
        exact hvariable (List.mem_cons_of_mem _ hx) hv
      · exact hpart x (List.mem_cons_of_mem _ hx) h

/-- there is a clue about every predicate variable -/
theorem exists_clue_of_mem {kb : KnowledgeBase} {t : Term} {v : String × PredicateUse}
    (h : v ∈ (t.predicateVariables kb).toList) : ∃ clue, (v.1, clue) ∈ t.predicateClues kb := by
  have hfold : ∀ (cs : List (String × PredicateClue)) (vs : PredicateVariables),
      v.1 ∈ cs.foldl (fun vs c => vs.add c.1 c.2) vs →
      v.1 ∈ vs ∨ ∃ clue, (v.1, clue) ∈ cs := by
    intro cs
    induction cs with
    | nil => intro vs hv; exact .inl hv
    | cons c cs ih =>
      intro vs hv
      rcases ih _ hv with hv | ⟨clue, hclue⟩
      · rcases Std.TreeMap.mem_insert.mp hv with he | hv
        · exact .inr ⟨c.2, by rw [← Std.LawfulEqCmp.compare_eq_iff_eq.mp he]; simp⟩
        · exact .inl hv
      · exact .inr ⟨clue, by simp [hclue]⟩
  have hmem : v.1 ∈ t.predicateVariables kb := by
    have hv := Std.TreeMap.mem_toList_iff_getElem?_eq_some.mp (show (v.1, v.2) ∈ _ from h)
    rw [Std.TreeMap.mem_iff_isSome_getElem?, hv]
    rfl
  rcases hfold _ _ hmem with h | h
  · simp at h
  · exact h

end Term

/-! ## one row -/

namespace Instance

variable {kb : KnowledgeBase}

theorem weight_assign_le (i : Instance) {name : String} {value : Term}
    (hvar : Name.isVariable name = true) (hv : value.containsVariable = false) :
    (i.assign name value).term.expansionWeight ≤ i.term.expansionWeight := by
  unfold assign
  split
  · exact Nat.le_refl _
  · rcases Term.weight_assign (t := i.term) hv hvar with h | ⟨h, _⟩
    · exact Nat.le_of_lt h
    · exact Nat.le_of_eq (congrArg Term.expansionWeight h)

/-- the assignments of a row make a term no heavier, and lighter if one of the variables had no value
and may be assigned -/
theorem weight_foldl_assign (ps : List (String × Term)) (i : Instance)
    (hps : ∀ p ∈ ps, Name.isVariable p.1 = true ∧ p.2.containsVariable = false) :
    (ps.foldl (fun i p => i.assign p.1 p.2) i).term.expansionWeight ≤ i.term.expansionWeight ∧
      ((∃ p ∈ ps, i.values.contains p.1 = false ∧ i.term.MayAssign p.1) →
        (ps.foldl (fun i p => i.assign p.1 p.2) i).term.expansionWeight <
          i.term.expansionWeight) := by
  induction ps generalizing i with
  | nil =>
    refine ⟨Nat.le_refl _, ?_⟩
    rintro ⟨p, hp, _⟩
    cases hp
  | cons p ps ih =>
    obtain ⟨hvar, hv⟩ := hps p (by simp)
    obtain ⟨hle, hlt⟩ := ih (i.assign p.1 p.2) fun q hq => hps q (by simp [hq])
    have hhead := i.weight_assign_le hvar hv
    refine ⟨Nat.le_trans hle hhead, ?_⟩
    rintro ⟨q, hq, hfree, hmay⟩
    rw [List.foldl_cons]
    by_cases hdone : i.values.contains p.1 = true
    · have hsame : i.assign p.1 p.2 = i := by rw [assign, if_pos hdone]
      rw [hsame] at hle hlt ⊢
      rcases List.mem_cons.mp hq with rfl | hq
      · rw [hfree] at hdone
        cases hdone
      · exact hlt ⟨q, hq, hfree, hmay⟩
    · have hassign : i.assign p.1 p.2 =
          ⟨i.term.assign p.1 p.2, i.values.insert p.1 p.2⟩ := by rw [assign, if_neg hdone]
      rw [hassign] at hle hlt ⊢
      rcases Term.weight_assign (t := i.term) hv hvar with h | ⟨hsame, hnf, hnb⟩
      · exact Nat.lt_of_le_of_lt hle h
      · -- the first variable is nowhere in the term, so that it is not the one that may be assigned
        have hne : q.1 ≠ p.1 := by
          rintro he
          rw [he] at hmay
          rcases hmay with hmay | hmay
          · exact hnf hmay
          · exact hmay _ hnb
        have hqps : q ∈ ps := (List.mem_cons.mp hq).resolve_left fun e => hne (by rw [e])
        have := hlt ⟨q, hqps, by
          rw [Std.TreeMap.contains_insert]
          simpa [hne.symm] using hfree, by rwa [hsame]⟩
        simp only [hsame] at this ⊢
        exact this

theorem weight_extend (literals : List Literal) (i : Instance) {row : Bindings}
    (hrow : row.Ground) :
    (i.extend kb literals row).term.expansionWeight ≤ i.term.expansionWeight ∧
      ∀ name, (∃ v, row[name]? = some v) → i.values.contains name = false →
        i.term.MayAssign name →
        (i.extend kb literals row).term.expansionWeight < i.term.expansionWeight := by
  have hps : ∀ p ∈ row.toList, Name.isVariable p.1 = true ∧ p.2.containsVariable = false :=
    fun p hp => hrow p.1 p.2 (Std.TreeMap.mem_toList_iff_getElem?_eq_some.mp hp)
  obtain ⟨hle, hlt⟩ := weight_foldl_assign row.toList i hps
  have hsimplify := Term.weight_simplify_le
    (row.toList.foldl (fun i p => i.assign p.1 p.2) i).term
    (kb.confirmed literals (row.toList.foldl (fun i p => i.assign p.1 p.2) i).values)
  refine ⟨Nat.le_trans hsimplify hle, fun name ⟨v, hv⟩ hfree hmay => ?_⟩
  refine Nat.lt_of_le_of_lt hsimplify (hlt ⟨(name, v), ?_, hfree, hmay⟩)
  exact Std.TreeMap.mem_toList_iff_getElem?_eq_some.mpr hv

/-! ## all joins -/

theorem mem_of_mem_foldl_addNew {js : List Instance} {found : List Instance} {k : Instance}
    (h : k ∈ js.foldl addNew found) : k ∈ found ∨ k ∈ js := by
  induction js generalizing found with
  | nil => exact .inl h
  | cons j js ih =>
    rcases ih h with h | h
    · unfold addNew at h
      split at h
      · exact .inl h
      · rcases List.mem_append.mp h with h | h
        · exact .inl h
        · rw [List.mem_singleton] at h
          exact .inr (by simp [h])
    · exact .inr (by simp [h])

/-- an instance after a join extends one before by a row that agrees with its values -/
theorem exists_of_mem_step {literals : List Literal} {rows : List Bindings}
    {found : List Instance} {k : Instance} (h : k ∈ step kb literals rows found) :
    ∃ i ∈ found, ∃ row ∈ rows, Bindings.agrees i.values row = true ∧
      k = i.extend kb literals row := by
  rcases mem_of_mem_foldl_addNew h with h | h
  · cases h
  · obtain ⟨i, hi, hk⟩ := List.mem_flatMap.mp h
    obtain ⟨row, hrow, rfl⟩ := List.mem_map.mp (List.mem_filter.mp hk).1
    obtain ⟨hrow, hagree⟩ := List.mem_filter.mp hrow
    exact ⟨i, hi, row, hrow, hagree, rfl⟩

/-- no join makes an instance heavier -/
theorem weight_run_le {js : List Join} (hjs : ∀ j ∈ js, ∃ name, j.IsFor name)
    {literals : List Literal} {found : List Instance} {k : Instance}
    (h : k ∈ run kb js literals found) :
    ∃ i ∈ found, k.term.expansionWeight ≤ i.term.expansionWeight := by
  induction js generalizing literals found with
  | nil => exact ⟨k, h, Nat.le_refl _⟩
  | cons j js ih =>
    obtain ⟨i, hi, hle⟩ := ih (fun j' hj' => hjs j' (by simp [hj'])) h
    obtain ⟨i', hi', row, hrow, _, rfl⟩ := exists_of_mem_step hi
    obtain ⟨name, hfor⟩ := hjs j (by simp)
    exact ⟨i', hi', Nat.le_trans hle (weight_extend _ i' (hfor row hrow).1).1⟩

end Instance

/-! ## formulas -/

namespace Term

/-- the terms that a formula is instantiated to are lighter than the formula -/
theorem weight_of_instantiated {kb : KnowledgeBase} (hkb : kb.Faithful) {t : Term} {s : Supply}
    {ts : List Term} (h : (t.instantiatePredicates kb s).1 = .instantiated ts) {u : Term}
    (hu : u ∈ ts) : u.expansionWeight < t.expansionWeight := by
  unfold instantiatePredicates at h
  split at h
  · next hpred =>
    rw [hasPredicateVariable, Bool.and_eq_true, List.any_eq_true] at hpred
    obtain ⟨_, v, hv, happlied⟩ := hpred
    simp only [State.bind_apply, State.pure_apply] at h
    generalize (ClausalForm.ofTerm t s).1 = form at h
    unfold instances at h
    split at h
    · cases h
    · next js hjs =>
      split at h
      · cases h
      · next found hne =>
        cases h
        obtain ⟨k, hk, rfl⟩ := List.mem_map.mp hu
        cases js with
        | nil => exact absurd rfl (joins_ne_nil hjs hv happlied)
        | cons j js =>
          have hrest : ∀ j' ∈ js, ∃ name, j'.IsFor name := by
            intro j' hj'
            obtain ⟨w, _, hfor⟩ := exists_of_mem_joins hkb hjs (List.mem_cons_of_mem _ hj')
            exact ⟨w.1, hfor⟩
          obtain ⟨i, hi, hle⟩ := Instance.weight_run_le hrest hk
          obtain ⟨i₀, hi₀, row, hrow, _, rfl⟩ := Instance.exists_of_mem_step hi
          rw [List.mem_singleton] at hi₀
          subst hi₀
          obtain ⟨w, hw, hfor⟩ := exists_of_mem_joins hkb hjs (List.mem_cons_self)
          obtain ⟨clue, hclue⟩ := exists_clue_of_mem hw
          obtain ⟨hground, hvalue⟩ := hfor row hrow
          exact Nat.lt_of_le_of_lt hle
            ((Instance.weight_extend _ _ hground).2 w.1 hvalue (by simp) (mayAssign_of_clue hclue))
  · cases h

end Term

end OntologyPrep
