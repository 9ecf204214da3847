import OntologyPrep.Proofs.State
import OntologyPrep.Proofs.Term.Weight

/-!
# Written out rows are lighter

A row variable weighs more than the longest sequence that takes its place (`RowRange.rowCount_le`), so
that a list in which it is written out is lighter than the list (`Term.weight_splice_lt`).  An atom
stays as it is.

`Term.of_mem_expandRows` says what this makes of the terms in which all row variables are written out:
they are lighter than the term, or the term is its own only one because nothing can be written out in
it.
-/

namespace OntologyPrep

/-! ## sequences in the place of a variable -/

theorem total_map_flatMap {α β : Type} (w : β → Nat) (f : α → List β) (xs : List α) :
    total ((xs.flatMap f).map w) = total (xs.map fun x => total ((f x).map w)) := by
  induction xs with
  | nil => rfl
  | cons x xs ih => rw [List.flatMap_cons, List.map_append, total_append, ih]; rfl

theorem Name.expansionWeight_of_isRowVariable {a : String} (h : isRowVariable a = true) :
    Term.rowWeight ≤ expansionWeight a := by
  rw [expansionWeight, if_pos h]
  omega

namespace Term

theorem splice_list (xs : List Term) (row : String) (sequence : List Term) :
    (list xs).splice row sequence = .list (xs.flatMap fun x =>
      if x = .atom row then sequence else [x.splice row sequence]) := by
  rw [splice]

/-- a sequence in the place of a row variable makes no term heavier, if it weighs less than one -/
theorem weight_splice_le (t : Term) {row : String} {sequence : List Term}
    (hrow : Name.isRowVariable row = true)
    (hseq : total (sequence.map expansionWeight) < rowWeight) :
    (t.splice row sequence).expansionWeight ≤ t.expansionWeight := by
  match t with
  | .atom a => exact Nat.le_of_eq (by rw [splice])
  | .list xs =>
    rw [splice_list, expansionWeight_list, expansionWeight_list, total_map_flatMap]
    refine sum_map_le_sum_map fun x hx => ?_
    have ih := weight_splice_le x hrow hseq
    split
    · next he =>
      have := Name.expansionWeight_of_isRowVariable hrow
      rw [he, expansionWeight_atom]
      omega
    · simpa using ih

/-- and makes a list lighter that has the row variable somewhere -/
theorem weight_splice_lt (xs : List Term) {row : String} {sequence : List Term}
    (hrow : Name.isRowVariable row = true)
    (hseq : total (sequence.map expansionWeight) < rowWeight) (h : row ∈ (list xs).atoms) :
    ((list xs).splice row sequence).expansionWeight < (list xs).expansionWeight := by
  have hvar := Name.expansionWeight_of_isRowVariable hrow
  obtain ⟨x, hx, hmem⟩ := List.mem_flatMap.mp (atoms_list xs ▸ h)
  rw [splice_list, expansionWeight_list, expansionWeight_list, total_map_flatMap]
  refine total_map_lt (fun y _ => ?_) ⟨x, hx, ?_⟩
  · have hle := weight_splice_le y hrow hseq
    split
    · next he =>
      rw [he, expansionWeight_atom]
      omega
    · simpa using hle
  · split
    · next he =>
      rw [he, expansionWeight_atom]
      omega
    · next hne =>
      cases x with
      | atom a =>
        rw [atoms_atom, List.mem_singleton] at hmem
        exact absurd (by rw [hmem]) hne
      | list ys => simpa using weight_splice_lt ys hrow hseq hmem
termination_by sizeOf xs
decreasing_by
  have hsize := List.sizeOf_lt_of_mem hx
  rw [list.sizeOf_spec] at hsize
  omega

end Term

/-! ## the length of a row -/

theorem RowRange.most_narrow_le (r : RowRange) (valence : Int) :
    (r.narrow valence).most ≤ r.most := by
  unfold narrow
  split
  · exact Nat.le_refl _
  · split
    · exact Nat.min_le_left _ _
    · exact Nat.le_refl _

theorem RowRange.most_ofRelations_le (kb : KnowledgeBase) (relations : List String) :
    (RowRange.ofRelations kb relations).most ≤ RowRange.limit := by
  have hfold : ∀ (rs : List String) (r : RowRange), r.most ≤ RowRange.limit →
      (rs.foldl (fun r relation => r.narrow (kb.valence relation)) r).most ≤ RowRange.limit := by
    intro rs
    induction rs with
    | nil => intro r h; exact h
    | cons relation rs ih =>
      intro r h
      exact ih _ (Nat.le_trans (r.most_narrow_le (kb.valence relation)) h)
  exact hfold relations .unknown (Nat.le_refl _)

/-- a row variable among the arguments makes an application of at least two elements -/
theorem ClausalForm.two_le_length {f : ClausalForm} {row : String} {t : Term}
    (h : t ∈ f.applicationsTo row) : 2 ≤ t.items.length := by
  obtain ⟨_, h⟩ := List.mem_filter.mp h
  rw [Bool.and_eq_true, List.any_eq_true] at h
  obtain ⟨_, x, hx, _⟩ := h
  have := List.length_pos_of_mem hx
  rw [Term.args, List.length_drop] at this
  omega

theorem ClausalForm.rowCount_le (f : ClausalForm) (row : String) (variadic : Bool) {count : Nat}
    (h : count ≤ RowRange.limit) : f.rowCount row variadic count ≤ RowRange.limit := by
  unfold rowCount
  refine Nat.max_le.mpr ⟨by decide, ?_⟩
  cases hmin : ((f.applicationsTo row).map (Term.roomForRow variadic count)).min? with
  | none => exact h
  | some m =>
    obtain ⟨app, happ, rfl⟩ := List.mem_map.mp (List.min?_mem hmin)
    have hlen := two_le_length happ
    simp only [Option.getD_some, Term.roomForRow, variadicLength, RowRange.limit] at h ⊢
    split <;> omega

/-! ## sequences of fresh variables -/

theorem Supply.weight_drawMany (row : String) (n : Nat) (s : Supply) :
    total (((drawMany (rowStem row) n s).1.map Term.atom).map Term.expansionWeight) ≤ n := by
  induction n generalizing s with
  | zero => exact Nat.le_refl _
  | succ n ih =>
    have hrest := ih (draw (rowStem row) s).2
    have hone : (Term.atom (draw (rowStem row) s).1).expansionWeight ≤ 1 := by
      have hrow : Name.isRowVariable (draw (rowStem row) s).1 = false := by
        simp [draw_eq, rowStem, Name.isRowVariable]
      rw [Term.expansionWeight_atom, Name.expansionWeight, hrow]
      split <;> simp
    show total ((((draw (rowStem row) s).1 ::
      (drawMany (rowStem row) n (draw (rowStem row) s).2).1).map Term.atom).map
        Term.expansionWeight) ≤ n + 1
    rw [List.map_cons, List.map_cons, total_cons]
    omega

theorem total_map_take_le {α : Type} (w : α → Nat) (n : Nat) (xs : List α) :
    total ((xs.take n).map w) ≤ total (xs.map w) := by
  induction xs generalizing n with
  | nil => simp
  | cons x xs ih =>
    cases n with
    | zero => exact Nat.zero_le _
    | succ n =>
      have := ih n
      rw [List.take_succ_cons, List.map_cons, List.map_cons, total_cons, total_cons]
      omega

theorem weight_rowSequences {row : String} {range : RowRange} {count : Nat} {s : Supply}
    {sequence : List Term} (h : sequence ∈ (rowSequences row range count s).1) :
    total (sequence.map Term.expansionWeight) ≤ count - 1 := by
  have hdrawn := Supply.weight_drawMany row (count - 1) s
  unfold rowSequences at h
  simp only [State.bind_apply, State.pure_apply] at h
  split at h
  · obtain ⟨n, _, rfl⟩ := List.mem_map.mp h
    exact Nat.le_trans (total_map_take_le _ _ _) hdrawn
  · rw [List.mem_singleton] at h
    rw [h]
    exact hdrawn

/-- the terms in which a row variable is written out come from it by sequences lighter than it -/
theorem Term.exists_of_mem_expandRow {kb : KnowledgeBase} {row : String} {t u : Term} {s : Supply}
    (h : u ∈ (t.expandRow kb row s).1) :
    ∃ sequence, u = t.splice row sequence ∧
      total (sequence.map expansionWeight) < rowWeight := by
  unfold expandRow at h
  simp only [State.bind_apply, State.pure_apply] at h
  obtain ⟨sequence, hseq, rfl⟩ := List.mem_map.mp h
  have hweight := weight_rowSequences hseq
  have hcount := ClausalForm.rowCount_le (ClausalForm.ofTerm t s).1 row
    (RowRange.ofRelations kb ((ClausalForm.ofTerm t s).1.governing row)).variadic
    (RowRange.most_ofRelations_le kb ((ClausalForm.ofTerm t s).1.governing row))
  refine ⟨sequence, rfl, ?_⟩
  rw [RowRange.limit] at hcount
  rw [rowWeight, RowRange.limit]
  omega

/-! ## terms held on the way -/

namespace RowExpansion

/-- a term that is held -/
def Holds (e : RowExpansion) (u : Term) : Prop := u ∈ e.finished ∨ u ∈ e.pending

theorem holds_put {e : RowExpansion} {t u : Term} (h : (e.put t).Holds u) : e.Holds u ∨ u = t := by
  unfold put at h
  split at h
  · rcases h with h | h
    · exact .inl (.inl h)
    · rcases List.mem_append.mp h with h | h
      · exact .inl (.inr h)
      · exact .inr (List.mem_singleton.mp h)
  · rcases h with h | h
    · rcases Distinct.mem_add.mp h with h | h
      · exact .inl (.inl h)
      · exact .inr h
    · exact .inl (.inr h)

/-- what each put keeps holds once all terms have been put, as far as there is room -/
theorem putAll_keeps {I : RowExpansion → Prop} {budget : Option Nat} {ts : List Term}
    (hput : ∀ t ∈ ts, ∀ e : RowExpansion, e.isFull budget = false → I e → I (e.put t))
    {e : RowExpansion} (h : I e) : I (putAll budget ts e).1 := by
  induction ts generalizing e with
  | nil => exact h
  | cons t ts ih =>
    obtain ⟨ht, hts⟩ := List.forall_mem_cons.mp hput
    rw [putAll]
    split
    · exact h
    · next hroom => exact ih hts (ht e (eq_false_of_ne_true hroom) h)

theorem holds_putAll {budget : Option Nat} {ts : List Term} {e : RowExpansion} {u : Term}
    (h : (putAll budget ts e).1.Holds u) : e.Holds u ∨ u ∈ ts := by
  refine putAll_keeps (I := fun e' => ∀ u, e'.Holds u → e.Holds u ∨ u ∈ ts)
    (fun t ht e' _ he u hu => ?_) (fun u hu => .inl hu) u h
  rcases holds_put hu with hu | rfl
  · exact he u hu
  · exact .inr ht

/-- the terms that writing one row variable out puts in the place of a term -/
def Replaces (kb : KnowledgeBase) (row : String) (t u : Term) : Prop :=
  t.containsAtom row = false ∧ u = t ∨
    t.containsAtom row = true ∧ ∃ s, u ∈ (t.expandRow kb row s).1

/-- what takes the place of a term when one row variable is written out -/
def replacements (kb : KnowledgeBase) (row : String) (t : Term) : StateM Supply (List Term) :=
  if t.containsAtom row then t.expandRow kb row else pure [t]

theorem replaces_of_mem {kb : KnowledgeBase} {row : String} {t u : Term} {s : Supply}
    (h : u ∈ (replacements kb row t s).1) : Replaces kb row t u := by
  unfold replacements at h
  split at h
  · next hc => exact .inr ⟨hc, s, h⟩
  · next hc => exact .inl ⟨eq_false_of_ne_true hc, List.mem_singleton.mp h⟩

theorem expandTerms_of_contains {kb : KnowledgeBase} {budget : Option Nat} {row : String} {t : Term}
    (hc : t.containsAtom row = true) (ts : List Term) (e : RowExpansion) (s : Supply) :
    expandTerms kb budget row (t :: ts) e s =
      match putAll budget (t.expandRow kb row s).1 e with
      | (e', true) => expandTerms kb budget row ts e' (t.expandRow kb row s).2
      | (e', false) => ({ e' with truncated := true }, (t.expandRow kb row s).2) := by
  rw [expandTerms, if_pos hc]
  simp only [State.bind_apply]
  generalize putAll budget (t.expandRow kb row s).1 e = p
  obtain ⟨e', full⟩ := p
  cases full <;> rfl

theorem expandTerms_of_not_contains {kb : KnowledgeBase} {budget : Option Nat} {row : String}
    {t : Term} (hc : t.containsAtom row = false) (ts : List Term) (e : RowExpansion) (s : Supply) :
    expandTerms kb budget row (t :: ts) e s =
      match putAll budget [t] e with
      | (e', true) => expandTerms kb budget row ts e' s
      | (e', false) => ({ e' with truncated := true }, s) := by
  rw [expandTerms, if_neg (by simp [hc])]
  simp only [State.bind_apply, State.pure_apply]
  generalize putAll budget [t] e = p
  obtain ⟨e', full⟩ := p
  cases full <;> rfl

theorem expandTerms_step {kb : KnowledgeBase} {row : String} (budget : Option Nat) (t : Term)
    (ts : List Term) (e : RowExpansion) (s : Supply) : expandTerms kb budget row (t :: ts) e s =
      if (putAll budget (replacements kb row t s).1 e).2 then
        expandTerms kb budget row ts (putAll budget (replacements kb row t s).1 e).1
          (replacements kb row t s).2
      else
        ({ (putAll budget (replacements kb row t s).1 e).1 with truncated := true },
          (replacements kb row t s).2) := by
  unfold replacements
  cases hc : t.containsAtom row with
  | true =>
    rw [expandTerms_of_contains hc, if_pos rfl]
    generalize putAll budget (t.expandRow kb row s).1 e = p
    obtain ⟨e', full⟩ := p
    cases full <;> rfl
  | false =>
    rw [expandTerms_of_not_contains hc, if_neg Bool.false_ne_true, State.pure_apply]
    generalize putAll budget [t] e = p
    obtain ⟨e', full⟩ := p
    cases full <;> rfl

/-- what putting the replacements of each term keeps holds once one row variable is written out -/
theorem expandTerms_keeps {I : RowExpansion → Prop} {kb : KnowledgeBase} {budget : Option Nat}
    {row : String} {ts : List Term}
    (hput : ∀ t ∈ ts, ∀ e s, I e → I (putAll budget (replacements kb row t s).1 e).1)
    (hfull : ∀ e, I e → I { e with truncated := true }) {e : RowExpansion} (h : I e) (s : Supply) :
    I (expandTerms kb budget row ts e s).1 := by
  induction ts generalizing e s with
  | nil => exact h
  | cons t ts ih =>
    obtain ⟨ht, hts⟩ := List.forall_mem_cons.mp hput
    rw [expandTerms_step]
    split
    · exact ih hts (ht e s h) _
    · exact hfull _ (ht e s h)

/-- what is held after one row variable has been written out: what was held, and what takes the place
of some terms -/
theorem holds_expandTerms {kb : KnowledgeBase} {budget : Option Nat} {row : String}
    {ts : List Term} {e : RowExpansion} {s : Supply} {u : Term}
    (h : (expandTerms kb budget row ts e s).1.Holds u) :
    e.Holds u ∨ ∃ t ∈ ts, Replaces kb row t u := by
  refine expandTerms_keeps (I := fun e' => ∀ u, e'.Holds u → e.Holds u ∨
      ∃ t ∈ ts, Replaces kb row t u)
    (fun t ht e' s' he u hu => ?_) (fun _ he => he) (fun u hu => .inl hu) s u h
  rcases holds_putAll hu with hu | hu
  · exact he u hu
  · exact .inr ⟨t, ht, replaces_of_mem hu⟩

/-- what is held after one row variable has been written out wherever it may still be -/
theorem holds_expandRow {kb : KnowledgeBase} {budget : Option Nat} {row : String}
    {e : RowExpansion} {s : Supply} {u : Term} (h : (expandRow kb budget e row s).1.Holds u) :
    e.Holds u ∨ ∃ t ∈ e.pending, Replaces kb row t u := by
  rcases holds_expandTerms h with (h | h) | h
  · exact .inl (.inl h)
  · cases h
  · exact .inr h

end RowExpansion

/-! ## all row variables -/

namespace Term

/-- what writing row variables out may make of a term: of an atom the atom, of a list a lighter one -/
def Lightened (t u : Term) : Prop :=
  u.isList = t.isList ∧ (t.isList = false → u = t) ∧
    (t.isList = true → u.expansionWeight < t.expansionWeight)

theorem isList_splice (t : Term) (row : String) (sequence : List Term) :
    (t.splice row sequence).isList = t.isList := by
  cases t with
  | atom a => rw [splice]
  | list xs =>
    rw [splice]
    rfl

/-- one row variable written out in a term that has it -/
theorem lightened_of_mem_expandRow {kb : KnowledgeBase} {row : String} {t u : Term} {s : Supply}
    (hrow : Name.isRowVariable row = true) (ht : t.containsAtom row = true)
    (h : u ∈ (t.expandRow kb row s).1) : t.Lightened u := by
  obtain ⟨sequence, rfl, hseq⟩ := exists_of_mem_expandRow h
  refine ⟨isList_splice t row sequence, fun hl => ?_, fun hl => ?_⟩
  · cases t with
    | atom a => rw [splice]
    | list xs => cases hl
  · cases t with
    | atom a => cases hl
    | list xs => exact weight_splice_lt xs hrow hseq (by simpa [containsAtom] using ht)

theorem Lightened.trans {t u v : Term} (h : t.Lightened u) (h' : u.Lightened v) :
    t.Lightened v := by
  obtain ⟨hl, hatom, hlt⟩ := h
  obtain ⟨hl', hatom', hlt'⟩ := h'
  refine ⟨hl'.trans hl, fun ht => ?_, fun ht => ?_⟩
  · rw [hatom' (hl.trans ht), hatom ht]
  · exact Nat.lt_trans (hlt' (hl.trans ht)) (hlt ht)

theorem mem_rowVariables {t : Term} {row : String} :
    row ∈ t.rowVariables ↔ row ∈ t.atoms ∧ Name.isRowVariable row = true := by
  rw [rowVariables, Std.TreeSet.mem_toList, Std.TreeSet.mem_ofList, List.contains_iff_mem,
    List.mem_filter]

/-- nothing can be written out: no row variable is left, or a string literal is in the way, or the term
is a row variable and no list -/
def IsExpanded (t : Term) : Prop :=
  t.containsRowVariable = true → t.containsQuoted = true ∨ t.isRowVariable = true

theorem isRowVariable_of_containsRowVariable_atom {a : String}
    (h : (atom a).containsRowVariable = true) : (atom a).isRowVariable = true := by
  simpa [containsRowVariable, isRowVariable] using h

theorem isExpanded_of_nothing_written {t : Term}
    (h : (t.rowVariables.isEmpty || t.containsQuoted) = true) : t.IsExpanded := by
  intro hrow
  rcases Bool.or_eq_true_iff.mp h with hnone | hquoted
  · obtain ⟨a, ha, hv⟩ := List.any_eq_true.mp hrow
    have hmem := mem_rowVariables.mpr ⟨ha, hv⟩
    rw [List.isEmpty_iff.mp hnone] at hmem
    cases hmem
  · exact .inl hquoted

/-- of the terms in which row variables are written out only the atoms stay as they are -/
theorem isExpanded_iff_of_written {t : Term} {row : String} (hrow : row ∈ t.rowVariables)
    (hquoted : ¬ t.containsQuoted = true) : t.IsExpanded ↔ t.isList = false := by
  obtain ⟨hatom, hvar⟩ := mem_rowVariables.mp hrow
  constructor
  · intro h
    have hbare := (h (List.any_eq_true.mpr ⟨row, hatom, hvar⟩)).resolve_left hquoted
    cases t with
    | atom a => rfl
    | list xs => cases hbare
  · intro hl hcontains
    cases t with
    | atom a => exact .inr (isRowVariable_of_containsRowVariable_atom hcontains)
    | list xs => cases hl

theorem eq_or_lightened_of_replaces {kb : KnowledgeBase} {row : String} {t u : Term}
    (hrow : Name.isRowVariable row = true) (h : RowExpansion.Replaces kb row t u) :
    t.containsAtom row = false ∧ u = t ∨ t.Lightened u := by
  rcases h with h | ⟨hcontains, s, hmem⟩
  · exact .inl h
  · exact .inr (lightened_of_mem_expandRow hrow hcontains hmem)

/-- what is held at the end of a run over some row variables, of which the term has the first one -/
theorem lightened_of_holds {kb : KnowledgeBase} {budget : Option Nat} {row : String}
    {rows : List String} (hrows : ∀ r ∈ row :: rows, Name.isRowVariable r = true) {t u : Term}
    (hcontains : t.containsAtom row = true) {s : Supply}
    (h : (((row :: rows).foldlM (RowExpansion.expandRow kb budget) ⟨[], [t], false⟩) s).1.Holds u) :
    t.Lightened u := by
  rw [List.forall_mem_cons] at hrows
  have hfirst : ∀ v, (RowExpansion.expandRow kb budget ⟨[], [t], false⟩ row s).1.Holds v →
      t.Lightened v := by
    intro v hv
    rcases RowExpansion.holds_expandTerms hv with (hv | hv) | ⟨w, hw, hreplaces⟩
    · cases hv
    · cases hv
    · rw [List.mem_singleton] at hw
      subst hw
      refine (eq_or_lightened_of_replaces hrows.1 hreplaces).resolve_left fun hnone => ?_
      rw [hcontains] at hnone
      cases hnone.1
  -- a later row variable keeps what is light, or makes it lighter
  have hlater : ∀ (e : RowExpansion), ∀ r ∈ rows, ∀ s', (∀ v, e.Holds v → t.Lightened v) →
      ∀ v, (RowExpansion.expandRow kb budget e r s').1.Holds v → t.Lightened v := by
    intro e r hr s' he v hv
    rcases RowExpansion.holds_expandRow hv with hv | ⟨w, hw, hreplaces⟩
    · exact he v hv
    · rcases eq_or_lightened_of_replaces (hrows.2 r hr) hreplaces with ⟨_, rfl⟩ | hlight
      · exact he v (.inr hw)
      · exact (he w (.inr hw)).trans hlight
  exact State.foldlM_keeps hlater (RowExpansion.expandRow kb budget ⟨[], [t], false⟩ row s).2
    hfirst u h

/-- the terms in which all row variables are written out: the term itself if nothing can be, and
lighter ones otherwise -/
theorem of_mem_expandRows {kb : KnowledgeBase} {budget : Option Nat} {t u : Term} {s : Supply}
    (h : u ∈ (t.expandRows kb budget s).1.1) :
    u = t ∧ t.IsExpanded ∨ u.expansionWeight < t.expansionWeight ∧ ¬ t.IsExpanded := by
  unfold expandRows at h
  split at h
  · next hnone => exact .inl ⟨List.mem_singleton.mp h, isExpanded_of_nothing_written hnone⟩
  · next hsome =>
    rw [Bool.or_eq_true, not_or] at hsome
    obtain ⟨hrows, hquoted⟩ := hsome
    cases hvars : t.rowVariables with
    | nil => exact absurd (by rw [hvars]; rfl) hrows
    | cons row rows =>
      have hall : ∀ r ∈ row :: rows, r ∈ t.rowVariables := fun r hr => by rwa [hvars]
      obtain ⟨hatom, -⟩ := mem_rowVariables.mp (hall row List.mem_cons_self)
      rw [hvars] at h
      simp only [State.bind_apply, State.pure_apply] at h
      have hlight : t.Lightened u := lightened_of_holds
        (fun r hr => (mem_rowVariables.mp (hall r hr)).2)
        (by simpa [containsAtom] using hatom) (Distinct.mem_addAll.mp h)
      rw [isExpanded_iff_of_written (hall row List.mem_cons_self) hquoted]
      cases hl : t.isList with
      | false => exact .inl ⟨hlight.2.1 hl, rfl⟩
      | true => exact .inr ⟨hlight.2.2 hl, Bool.noConfusion⟩

/-! ## what stays -/

end Term

namespace RowExpansion

theorem holds_put_of_holds {e : RowExpansion} {t u : Term} (h : e.Holds u ∨ u = t) :
    (e.put t).Holds u := by
  unfold put
  split
  · rcases h with (h | h) | h
    · exact .inl h
    · exact .inr (by simp [h])
    · exact .inr (by simp [h])
  · rcases h with (h | h) | h
    · exact .inl (Distinct.mem_add.mpr (.inl h))
    · exact .inr h
    · exact .inl (Distinct.mem_add.mpr (.inr h))

theorem holds_putAll_of_holds {budget : Option Nat} {ts : List Term} {e : RowExpansion} {u : Term}
    (h : e.Holds u) : (putAll budget ts e).1.Holds u :=
  putAll_keeps (I := fun e => e.Holds u) (fun _ _ _ _ he => holds_put_of_holds (.inl he)) h

/-- the first term that is put where nothing is held finds room -/
theorem holds_putAll_cons {n : Nat} (hn : n ≠ 0) (t : Term) (ts : List Term) :
    (putAll (some n) (t :: ts) ⟨[], [], false⟩).1.Holds t := by
  have hroom : isFull ⟨[], [], false⟩ (some n) = false := by simpa [isFull, size] using by omega
  rw [putAll, hroom]
  exact holds_putAll_of_holds (holds_put_of_holds (.inr rfl))

end RowExpansion

theorem rowSequences_ne_nil (row : String) (range : RowRange) {count : Nat} (h : 2 ≤ count)
    (s : Supply) : (rowSequences row range count s).1 ≠ [] := by
  have hlength : ∀ (n : Nat) (s : Supply), (Supply.drawMany (rowStem row) n s).1.length = n := by
    intro n
    induction n with
    | zero => intro s; rfl
    | succ n ih => intro s; exact congrArg (· + 1) (ih _)
  unfold rowSequences
  simp only [State.bind_apply, State.pure_apply]
  split
  · refine List.ne_nil_of_length_pos ?_
    rw [List.length_map, List.length_range, List.length_map, hlength]
    omega
  · simp

namespace Term

theorem rowVariables_atom {a : String} (h : Name.isRowVariable a = true) :
    (atom a).rowVariables = [a] := by
  have hmem : ∀ r, r ∈ (atom a).rowVariables ↔ r = a := by
    intro r
    rw [mem_rowVariables, atoms_atom, List.mem_singleton]
    constructor
    · exact fun hr => hr.1
    · rintro rfl
      exact ⟨rfl, h⟩
  have hdistinct : (atom a).rowVariables.Pairwise fun r r' => ¬ compare r r' = .eq :=
    Std.TreeSet.distinct_toList
  match hrows : (atom a).rowVariables with
  | [] => exact absurd ((hmem a).mpr rfl) (by simp [hrows])
  | [r] => rw [(hmem r).mp (by simp [hrows])]
  | r :: r' :: rest =>
    rw [hrows] at hmem hdistinct
    refine absurd ?_ (List.rel_of_pairwise_cons hdistinct List.mem_cons_self)
    rw [(hmem r).mp (by simp), (hmem r').mp (by simp)]
    exact Std.compare_self

/-- a term in which nothing can be written out is among its own expansions, if there is room for one -/
theorem self_mem_expandRows {kb : KnowledgeBase} {n : Nat} (hn : n ≠ 0) {t : Term}
    (h : t.IsExpanded) (s : Supply) : t ∈ (t.expandRows kb (some n) s).1.1 := by
  unfold expandRows
  split
  · exact List.mem_singleton.mpr rfl
  · next hsome =>
    rw [Bool.or_eq_true, not_or] at hsome
    obtain ⟨hrows, hquoted⟩ := hsome
    obtain ⟨row, hrow⟩ := List.exists_mem_of_ne_nil _ fun he => hrows (List.isEmpty_iff.mpr he)
    have hbare := (isExpanded_iff_of_written hrow hquoted).mp h
    obtain ⟨hatom, hvar⟩ := mem_rowVariables.mp hrow
    cases t with
    | list xs => cases hbare
    | atom a =>
      rw [atoms_atom, List.mem_singleton] at hatom
      subst hatom
      have hcontains : (atom row).containsAtom row = true := by simp [containsAtom]
      -- written out in the atom, every sequence leaves the atom
      have hcopies : ∃ u us, ((atom row).expandRow kb row s).1 = u :: us ∧ u = atom row := by
        unfold expandRow
        simp only [State.bind_apply, State.pure_apply]
        obtain ⟨x, xs, hx⟩ := List.exists_cons_of_ne_nil (rowSequences_ne_nil row
          (RowRange.ofRelations kb ((ClausalForm.ofTerm (atom row) s).1.governing row))
          (Nat.le_max_left 2 _) (ClausalForm.ofTerm (atom row) s).2)
        refine ⟨(atom row).splice row x, xs.map ((atom row).splice row), ?_, by rw [splice]⟩
        unfold ClausalForm.rowCount
        rw [hx, List.map_cons]
      obtain ⟨u, us, hus, rfl⟩ := hcopies
      have hholds : (RowExpansion.expandRow kb (some n) ⟨[], [atom row], false⟩ row s).1.Holds
          (atom row) := by
        have hput := RowExpansion.holds_putAll_cons hn (atom row) us
        rw [RowExpansion.expandRow, RowExpansion.expandTerms_step, RowExpansion.replacements,
          if_pos hcontains, hus]
        split
        · exact hput
        · exact hput
      rw [rowVariables_atom hvar]
      exact Distinct.mem_addAll.mpr hholds

end Term

end OntologyPrep
