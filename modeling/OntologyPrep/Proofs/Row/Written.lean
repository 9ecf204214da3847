import OntologyPrep.Proofs.Row.Exact

/-!
# Written out rows as a substitution

The row variables of a formula are written out one after another, and a term that has been made on the
way is classified anew for each of them.  Still every term that comes of it is the one term in which each
row variable has been replaced, wherever it stands, by a sequence of its own.

* `Formula.expandRowsWithin_writes`   what the formulas are, and how many of them;
* `Formula.expandRows_fresh`          the sequences are new to a formula none of whose atoms is a row
                                      variable's own name with a number;
* `Formula.not_expandRows_fresh`      and not always to one that has such an atom.
-/

namespace OntologyPrep

/-! ## all row variables replaced at once -/

namespace Term

variable {names : String → List String} {row a : String}

/-- a term among the elements of a list, with each row variable replaced by variables of its own -/
def writtenItems (names : String → List String) (t : Term) : List Term :=
  match t with
  | .atom a => if Name.isRowVariable a then (names a).map .atom else [.atom a]
  | .list items => [.list (items.flatMap fun x => x.writtenItems names)]

/-- each row variable replaced by variables of its own, in every list that has it as an element -/
def writeRows (names : String → List String) (t : Term) : Term :=
  match t with
  | .atom a => .atom a
  | .list items => .list (items.flatMap fun x => x.writtenItems names)

theorem writtenItems_atom (names : String → List String) (a : String) : (atom a).writtenItems names =
    if Name.isRowVariable a then (names a).map .atom else [.atom a] := by
  rw [writtenItems]

theorem writtenItems_list (names : String → List String) (xs : List Term) :
    (list xs).writtenItems names = [.list (xs.flatMap fun x => x.writtenItems names)] := by
  rw [writtenItems]

/-- the atoms of a term as an element, with the row variables replaced -/
theorem atoms_writtenItems (names : String → List String) (t : Term) :
    (t.writtenItems names).flatMap atoms =
      t.atoms.flatMap fun a => if Name.isRowVariable a then names a else [a] := by
  match t with
  | .atom a =>
    rw [writtenItems_atom, atoms_atom, List.flatMap_singleton]
    split
    · rw [List.flatMap_map]
      simp only [atoms_atom, List.flatMap_singleton']
    · rw [List.flatMap_singleton, atoms_atom]
  | .list xs =>
    rw [writtenItems_list, List.flatMap_singleton, atoms_list, atoms_list, List.flatMap_assoc,
      List.flatMap_assoc]
    exact List.flatMap_congr fun x _ => atoms_writtenItems names x

/-- an atom of the term with its row variables replaced -/
theorem mem_atoms_writeRows {t : Term} (hlist : t.isList = true) : a ∈ (t.writeRows names).atoms ↔
    (a ∈ t.atoms ∧ Name.isRowVariable a = false) ∨ ∃ row ∈ t.rowVariables, a ∈ names row := by
  obtain ⟨xs, rfl⟩ : ∃ xs, t = .list xs := by
    cases t with
    | atom b => cases hlist
    | list xs => exact ⟨xs, rfl⟩
  have hatoms := atoms_writtenItems names (.list xs)
  rw [writtenItems_list, List.flatMap_singleton] at hatoms
  rw [writeRows, hatoms, List.mem_flatMap]
  constructor
  · rintro ⟨b, hb, ha⟩
    split at ha
    · next hrow => exact .inr ⟨b, mem_rowVariables.mpr ⟨hb, hrow⟩, ha⟩
    · next hrow =>
      obtain rfl := List.mem_singleton.mp ha
      exact .inl ⟨hb, Bool.eq_false_iff.mpr hrow⟩
  · rintro (⟨ha, hrow⟩ | ⟨row, hmem, ha⟩)
    · exact ⟨a, ha, by simp [hrow]⟩
    · obtain ⟨hb, hrow⟩ := mem_rowVariables.mp hmem
      exact ⟨row, hb, by simpa [hrow] using ha⟩

/-- row variables that are replaced by themselves -/
theorem writtenItems_self {t : Term} (h : ∀ row ∈ t.rowVariables, names row = [row]) :
    t.writtenItems names = [t] := by
  match t with
  | .atom a =>
    rw [writtenItems_atom]
    split
    · next hrow =>
      rw [h a (mem_rowVariables.mpr ⟨by simp, hrow⟩)]
      rfl
    · rfl
  | .list xs =>
    rw [writtenItems_list]
    have hitems : ∀ x ∈ xs, x.writtenItems names = [x] := by
      intro x hx
      refine writtenItems_self fun row hrow => h row ?_
      obtain ⟨hmem, hvar⟩ := mem_rowVariables.mp hrow
      exact mem_rowVariables.mpr ⟨mem_atoms_of_mem_items (t := .list xs) hx hmem, hvar⟩
    rw [List.flatMap_congr hitems, List.flatMap_singleton']

theorem writeRows_self {t : Term} (h : ∀ row ∈ t.rowVariables, names row = [row]) :
    t.writeRows names = t := by
  cases t with
  | atom a => rfl
  | list xs =>
    have hitems := writtenItems_self h
    rw [writtenItems_list] at hitems
    exact (List.cons.inj hitems).1

/-- one more row variable written out in a list whose elements have been replaced -/
theorem splice_writtenItems (ns : List String) (hvar : Name.isRowVariable row = true)
    (hrow : names row = [row]) {t : Term} (h : ∀ r ∈ t.rowVariables, r ≠ row → row ∉ names r) :
    ((t.writtenItems names).flatMap fun x =>
        if x = .atom row then ns.map .atom else [x.splice row (ns.map .atom)]) =
      t.writtenItems (Function.update names row ns) := by
  match t with
  | .atom a =>
    rw [writtenItems_atom, writtenItems_atom]
    by_cases ha : a = row
    · subst ha
      rw [if_pos hvar, if_pos hvar, hrow, Function.update_self]
      simp
    · rw [Function.update_of_ne ha]
      split
      · next hrowvar =>
        -- the names of other row variables are not this one
        have hother : ∀ b ∈ names a, b ≠ row := by
          rintro b hb rfl
          exact h a (mem_rowVariables.mpr ⟨by simp, hrowvar⟩) ha hb
        rw [List.flatMap_map]
        refine (List.flatMap_congr fun b hb => ?_).trans (List.map_eq_flatMap).symm
        rw [if_neg (by simpa using hother b hb), splice]
      · rw [List.flatMap_singleton, if_neg (by simpa using ha), splice]
  | .list xs =>
    rw [writtenItems_list, writtenItems_list, List.flatMap_singleton, if_neg (by simp), splice_list,
      List.flatMap_assoc]
    have hitems : ∀ x ∈ xs, ((x.writtenItems names).flatMap fun x =>
        if x = .atom row then ns.map .atom else [x.splice row (ns.map .atom)]) =
          x.writtenItems (Function.update names row ns) := by
      intro x hx
      refine splice_writtenItems ns hvar hrow fun r hr => h r ?_
      obtain ⟨hmem, hr⟩ := mem_rowVariables.mp hr
      exact mem_rowVariables.mpr ⟨mem_atoms_of_mem_items (t := .list xs) hx hmem, hr⟩
    rw [List.flatMap_congr hitems]

/-- one more row variable written out in a term in which some have been replaced -/
theorem splice_writeRows {ns : List String} (hvar : Name.isRowVariable row = true)
    (hrow : names row = [row]) {t : Term} (h : ∀ r ∈ t.rowVariables, r ≠ row → row ∉ names r) :
    (t.writeRows names).splice row (ns.map .atom) = t.writeRows (Function.update names row ns) := by
  cases t with
  | atom a => rw [writeRows, writeRows, splice]
  | list xs =>
    have hitems := splice_writtenItems ns hvar hrow h
    rw [writtenItems_list, writtenItems_list, List.flatMap_singleton, if_neg (by simp)] at hitems
    exact (List.cons.inj hitems).1

end Term

/-! ## the sequences -/

/-- different plain variables that a row variable may be written out with -/
structure WritesRow (row : String) (names : List String) : Prop where
  pos : 1 ≤ names.length
  le_seven : names.length ≤ 7
  nodup : names.Nodup
  plain : ∀ a ∈ names, Name.isPlainVariable a = true
  /-- each is the name of the row variable with a number -/
  named : ∀ a ∈ names, ∃ n : Nat, a = rowStem row ++ toString n

/-- the variables in the place of a row variable are no row variables -/
theorem WritesRow.not_mem {row r : String} {names : List String} (h : WritesRow r names)
    (hvar : Name.isRowVariable row = true) : row ∉ names := by
  intro hmem
  have hplain := h.plain row hmem
  rw [Name.isPlainVariable_of_isVariable (Name.isVariable_of_isRowVariable hvar), hvar] at hplain
  cases hplain

namespace Term

variable {kb : KnowledgeBase} {row : String} {t u : Term} {s : Supply}

theorem exists_writesRow_of_mem_expandRow (h : u ∈ (t.expandRow kb row s).1) :
    ∃ names : List String, u = t.splice row (names.map .atom) ∧ WritesRow row names := by
  rw [expandRow_eq] at h
  obtain ⟨n, hn, rfl⟩ := List.mem_map.mp h
  have hallows := ClausalForm.allowsRow_of_mem_rowLengths hn
  have hseven := hallows.le_seven
  refine ⟨rowNames row n _, rfl, ?_⟩
  exact {
    pos := by rw [length_rowNames]; exact hallows.pos
    le_seven := by rw [length_rowNames]; exact hseven
    nodup := nodup_rowNames row (by omega) _
    plain := fun a ha => isPlainVariable_of_mem_rowNames ha
    named := by
      intro a ha
      obtain ⟨i, -, rfl⟩ := List.mem_map.mp ha
      exact ⟨_, rfl⟩ }

/-- some row variables of a term have been replaced, each by a sequence of its own -/
def WrittenFrom (t : Term) (rows : List String) (u : Term) : Prop :=
  ∃ names : String → List String, u = t.writeRows names ∧
    (∀ row ∈ rows, row ∈ t.rowVariables → WritesRow row (names row)) ∧
    ∀ row, row ∉ rows → names row = [row]

theorem writtenFrom_nil (t : Term) : t.WrittenFrom [] t :=
  ⟨fun row => [row], (writeRows_self fun _ _ => rfl).symm, by simp, fun _ _ => rfl⟩

theorem WrittenFrom.step {rows : List String} {v : Term} (hlist : t.isList = true)
    (hvar : Name.isRowVariable row = true) (h : t.WrittenFrom rows v)
    (hreplaces : RowExpansion.Replaces kb row v u) : t.WrittenFrom (rows ++ [row]) u := by
  obtain ⟨names, rfl, hwritten, hrest⟩ := h
  -- the row variable is there as long as its turn has not come
  have hleft : row ∈ (t.writeRows names).atoms ↔ row ∈ t.rowVariables ∧ row ∉ rows := by
    rw [mem_atoms_writeRows hlist]
    constructor
    · rintro (⟨-, hplain⟩ | ⟨r, hr, hmem⟩)
      · rw [hvar] at hplain
        cases hplain
      · have hnot : r ∉ rows := fun hdone => (hwritten r hdone hr).not_mem hvar hmem
        rw [hrest r hnot, List.mem_singleton] at hmem
        rw [hmem]
        exact ⟨hr, hnot⟩
    · rintro ⟨hr, hnot⟩
      exact .inr ⟨row, hr, by rw [hrest row hnot]; exact List.mem_singleton_self row⟩
  rcases hreplaces with ⟨hcontains, rfl⟩ | ⟨hcontains, s, hmem⟩
  · refine ⟨names, rfl, fun r hr hmem => ?_, fun r hr => hrest r fun h => hr (List.mem_append_left _ h)⟩
    rcases List.mem_append.mp hr with hr | hr
    · exact hwritten r hr hmem
    · obtain rfl := List.mem_singleton.mp hr
      by_cases hdone : r ∈ rows
      · exact hwritten r hdone hmem
      · have hthere := List.contains_iff_mem.mpr (hleft.mpr ⟨hmem, hdone⟩)
        rw [containsAtom, hthere] at hcontains
        cases hcontains
  · obtain ⟨hr, hnot⟩ := hleft.mp (List.contains_iff_mem.mp hcontains)
    obtain ⟨ns, rfl, hns⟩ := exists_writesRow_of_mem_expandRow hmem
    have hothers : ∀ r ∈ t.rowVariables, r ≠ row → row ∉ names r := by
      intro r hr hne hmem
      by_cases hdone : r ∈ rows
      · exact (hwritten r hdone hr).not_mem hvar hmem
      · rw [hrest r hdone, List.mem_singleton] at hmem
        exact hne hmem.symm
    refine ⟨Function.update names row ns, splice_writeRows hvar (hrest row hnot) hothers,
      fun r hr hmem => ?_, fun r hr => ?_⟩
    · by_cases he : r = row
      · rw [he, Function.update_self]
        exact hns
      · rw [Function.update_of_ne he]
        rcases List.mem_append.mp hr with hr | hr
        · exact hwritten r hr hmem
        · exact absurd (List.mem_singleton.mp hr) he
    · rw [Function.update_of_ne fun he => hr (by simp [he])]
      exact hrest r fun h => hr (List.mem_append_left _ h)

/-- every term that a list without string literals comes to is the list with each row variable replaced
by a sequence of its own -/
theorem exists_writeRows_of_mem_expandRows {budget : Option Nat} (hlist : t.isList = true)
    (hquoted : t.containsQuoted = false) (h : u ∈ (t.expandRows kb budget s).1.1) :
    ∃ names : String → List String, u = t.writeRows names ∧
      ∀ row ∈ t.rowVariables, WritesRow row (names row) := by
  have hwritten : t.WrittenFrom t.rowVariables u := by
    unfold expandRows at h
    split at h
    · next hnone =>
      rw [hquoted, Bool.or_false, List.isEmpty_iff] at hnone
      rw [hnone, List.mem_singleton.mp h]
      exact writtenFrom_nil t
    · have hstart : ∀ v, RowExpansion.Holds ⟨[], [t], false⟩ v → t.WrittenFrom [] v := by
        rintro v (hv | hv)
        · cases hv
        · rw [List.mem_singleton.mp hv]
          exact writtenFrom_nil t
      exact RowExpansion.holds_foldlM (fun hvar hv => hv.step hlist hvar)
        (fun r hr => (mem_rowVariables.mp hr).2) (fun v hv => absurd hv List.not_mem_nil) hstart
        (Distinct.mem_addAll.mp h)
  obtain ⟨names, hu, hrows, -⟩ := hwritten
  exact ⟨names, hu, fun row hrow => hrows row hrow hrow⟩

/-- no row variable is left where each is replaced by a sequence -/
theorem containsRowVariable_writeRows {names : String → List String} (hlist : t.isList = true)
    (hnames : ∀ row ∈ t.rowVariables, WritesRow row (names row)) :
    (t.writeRows names).containsRowVariable = false := by
  rw [containsRowVariable, List.any_eq_false]
  intro a ha hvar
  rcases (mem_atoms_writeRows hlist).mp ha with ⟨-, hplain⟩ | ⟨row, hrow, hmem⟩
  · rw [hvar] at hplain
    cases hplain
  · exact (hnames row hrow).not_mem hvar hmem

end Term

/-! ## how many terms there are -/

namespace RowExpansion

variable {kb : KnowledgeBase} {budget : Option Nat} {row : String}

theorem size_putAll_le_add (ts : List Term) (e : RowExpansion) :
    (putAll budget ts e).1.size ≤ e.size + ts.length := by
  induction ts generalizing e with
  | nil => exact Nat.le_refl _
  | cons t ts ih =>
    rw [putAll, List.length_cons]
    split
    · exact Nat.le_add_right _ _
    · have hput := size_put_le e t
      have hrest := ih (e.put t)
      omega

/-- a term comes to no more than seven when one row variable is written out -/
theorem length_replacements_le (t : Term) (s : Supply) : (replacements kb row t s).1.length ≤ 7 := by
  unfold replacements
  split
  · rw [Term.expandRow_eq, List.length_map, ClausalForm.rowLengths]
    split
    · rw [List.length_map, List.length_range]
      exact ClausalForm.rowLimit_le_seven kb _ row
    · exact Nat.le_of_ble_eq_true rfl
  · exact Nat.le_of_ble_eq_true rfl

theorem size_expandTerms_le_add (ts : List Term) (e : RowExpansion) (s : Supply) :
    (expandTerms kb budget row ts e s).1.size ≤ e.size + 7 * ts.length := by
  induction ts generalizing e s with
  | nil => exact Nat.le_refl _
  | cons t ts ih =>
    have hput : (putAll budget (replacements kb row t s).1 e).1.size ≤
        e.size + (replacements kb row t s).1.length := size_putAll_le_add _ e
    have hseven : (replacements kb row t s).1.length ≤ 7 := length_replacements_le t s
    rw [expandTerms_step, List.length_cons]
    split
    · have hrest := ih (putAll budget (replacements kb row t s).1 e).1 (replacements kb row t s).2
      omega
    · show (putAll budget (replacements kb row t s).1 e).1.size ≤ _
      omega

theorem size_expandRow_le_mul (e : RowExpansion) (s : Supply) :
    (expandRow kb budget e row s).1.size ≤ 7 * e.size := by
  have hterms : (expandRow kb budget e row s).1.size ≤
      size { e with pending := [] } + 7 * e.pending.length := size_expandTerms_le_add e.pending _ s
  have hstart : size { e with pending := [] } = e.finished.length := rfl
  rw [hstart] at hterms
  refine Nat.le_trans hterms ?_
  unfold size
  omega

theorem size_foldlM_le (rows : List String) (e : RowExpansion) (s : Supply) :
    ((rows.foldlM (expandRow kb budget) e) s).1.size ≤ 7 ^ rows.length * e.size := by
  induction rows generalizing e s with
  | nil => simp
  | cons row rows ih =>
    rw [State.foldlM_cons_apply, List.length_cons, Nat.pow_succ, Nat.mul_assoc]
    exact Nat.le_trans (ih _ _) (Nat.mul_le_mul_left _ (size_expandRow_le_mul e s))

/-- without a budget nothing is left out -/
theorem truncated_expandTerms_none (ts : List Term) (e : RowExpansion) (s : Supply) :
    (expandTerms kb none row ts e s).1.truncated = e.truncated := by
  induction ts generalizing e s with
  | nil => rfl
  | cons t ts ih => rw [expandTerms_step, if_pos (putAll_none _ _).1, ih, truncated_putAll]

theorem truncated_foldlM_none (rows : List String) (e : RowExpansion) (s : Supply) :
    ((rows.foldlM (expandRow kb none) e) s).1.truncated = e.truncated := by
  induction rows generalizing e s with
  | nil => rfl
  | cons row rows ih =>
    rw [State.foldlM_cons_apply, ih]
    exact truncated_expandTerms_none e.pending _ s

/-- all terms are held if there was room for all -/
theorem holds_putAll_of_room {ts : List Term} {e : RowExpansion} (h : (putAll budget ts e).2 = true)
    {u : Term} (hu : u ∈ ts) : (putAll budget ts e).1.Holds u := by
  induction ts generalizing e with
  | nil => cases hu
  | cons t ts ih =>
    rw [putAll] at h ⊢
    split at h
    · cases h
    · next hroom =>
      rw [if_neg hroom]
      rcases List.mem_cons.mp hu with rfl | hu
      · exact holds_putAll_of_holds (holds_put_of_holds (.inr rfl))
      · exact ih h hu

/-- something is held if nothing has been left out -/
theorem exists_holds_of_not_truncated {e : RowExpansion} {s : Supply} (h : ∃ u, e.Holds u)
    (hall : (expandRow kb budget e row s).1.truncated = false) :
    ∃ u, (expandRow kb budget e row s).1.Holds u := by
  obtain ⟨u, hu | hu⟩ := h
  · exact ⟨u, holds_expandTerms_of_holds (.inl hu)⟩
  · obtain ⟨t, ts, hpending⟩ := List.exists_cons_of_ne_nil (List.ne_nil_of_mem hu)
    obtain ⟨x, hx⟩ := List.exists_mem_of_ne_nil _ (replacements_ne_nil kb row t s)
    refine ⟨x, ?_⟩
    unfold expandRow at hall ⊢
    rw [hpending, expandTerms_step] at hall ⊢
    split at hall
    · next hroom =>
      rw [if_pos hroom]
      exact holds_expandTerms_of_holds (holds_putAll_of_room hroom hx)
    · cases hall

theorem exists_holds_foldlM {rows : List String} {e : RowExpansion} {s : Supply} (h : ∃ u, e.Holds u)
    (hall : ((rows.foldlM (expandRow kb budget) e) s).1.truncated = false) :
    ∃ u, ((rows.foldlM (expandRow kb budget) e) s).1.Holds u := by
  induction rows generalizing e s with
  | nil => exact h
  | cons row rows ih =>
    rw [State.foldlM_cons_apply] at hall ⊢
    refine ih (exists_holds_of_not_truncated h (Bool.eq_false_iff.mpr fun htrue => ?_)) hall
    have hlater : ((rows.foldlM (expandRow kb budget) (expandRow kb budget e row s).1)
        (expandRow kb budget e row s).2).1.truncated = true :=
      State.foldlM_keeps (P := fun e : RowExpansion => e.truncated = true)
        (fun _ _ _ s' hb => truncated_expandRow s' hb) _ htrue
    rw [hlater] at hall
    cases hall

end RowExpansion

namespace Term

variable {kb : KnowledgeBase} {budget : Option Nat} {t : Term} {s : Supply}

theorem length_expandRows_le_pow (t : Term) (s : Supply) :
    (t.expandRows kb budget s).1.1.length ≤ 7 ^ t.rowVariables.length := by
  unfold expandRows
  split
  · exact Nat.one_le_pow _ _ (by omega)
  · simp only [State.bind_apply, State.pure_apply]
    refine Nat.le_trans (Distinct.length_addAll_le _ _) ?_
    exact Nat.le_trans (RowExpansion.size_foldlM_le t.rowVariables ⟨[], [t], false⟩ s)
      (Nat.le_of_eq (Nat.mul_one _))

theorem not_truncated_expandRows (t : Term) (s : Supply) : (t.expandRows kb none s).1.2 = false := by
  unfold expandRows
  split
  · rfl
  · exact RowExpansion.truncated_foldlM_none t.rowVariables ⟨[], [t], false⟩ s

theorem expandRows_ne_nil_of_not_truncated (h : (t.expandRows kb budget s).1.2 = false) :
    (t.expandRows kb budget s).1.1 ≠ [] := by
  unfold expandRows at h ⊢
  split
  · exact List.cons_ne_nil _ _
  · next hsome =>
    rw [if_neg hsome] at h
    simp only [State.bind_apply, State.pure_apply] at h ⊢
    obtain ⟨u, hu⟩ := RowExpansion.exists_holds_foldlM ⟨t, .inr List.mem_cons_self⟩ h
    exact List.ne_nil_of_mem (Distinct.mem_addAll.mpr hu)

end Term

/-! ## formulas -/

namespace Formula

variable {kb : KnowledgeBase} {f : Formula} {t : Term} {budget : Option Nat} {s : Supply}

theorem expandRowsWithin_eq (hterm : f.term = some t) : (f.expandRowsWithin kb budget s).1 =
    ((t.expandRows kb budget s).1.1.map f.derive, (t.expandRows kb budget s).1.2) := by
  rw [expandRowsWithin, hterm]
  rfl

/-- Every formula that a list without string literals comes to has each row variable replaced, wherever
it stands, by one sequence of one to seven different variables named after it, and no row variable is
left.  There are no more formulas than the power of seven by the number of row variables, and at least one
if nothing has been left out; without a budget nothing is. -/
theorem expandRowsWithin_writes (hterm : f.term = some t) (hlist : t.isList = true)
    (hquoted : t.containsQuoted = false) :
    (∀ g ∈ (f.expandRowsWithin kb budget s).1.1, ∃ names : String → List String,
        g = f.derive (t.writeRows names) ∧ (t.writeRows names).containsRowVariable = false ∧
          ∀ row ∈ t.rowVariables, WritesRow row (names row)) ∧
      (f.expandRowsWithin kb budget s).1.1.length ≤ 7 ^ t.rowVariables.length ∧
      ((f.expandRowsWithin kb budget s).1.2 = false →
        1 ≤ (f.expandRowsWithin kb budget s).1.1.length) ∧
      (f.expandRowsWithin kb none s).1.2 = false := by
  rw [expandRowsWithin_eq hterm, expandRowsWithin_eq hterm]
  refine ⟨fun g hg => ?_, ?_, fun hall => ?_, Term.not_truncated_expandRows t s⟩
  · obtain ⟨u, hu, rfl⟩ := List.mem_map.mp hg
    obtain ⟨names, rfl, hnames⟩ := Term.exists_writeRows_of_mem_expandRows hlist hquoted hu
    exact ⟨names, rfl, Term.containsRowVariable_writeRows hlist hnames, hnames⟩
  · rw [List.length_map]
    exact Term.length_expandRows_le_pow t s
  · rw [List.length_map]
    exact List.length_pos_of_ne_nil (Term.expandRows_ne_nil_of_not_truncated hall)

end Formula

/-- two row variables, one of them in a list of bound variables and in a nested application -/
def nestedRows : Term :=
  .quantified Quantifier.all.name ["@R", "?X"] (.implies (.app "p" [.atom "@R", .atom "?X"])
    (.app "q" [.atom "@S", .app "f" [.atom "@R"]]))

theorem Formula.expandRowsWithin_writes_nestedRows :
    (nestedRows.isList = true ∧ nestedRows.containsQuoted = false) ∧
      nestedRows.rowVariables = ["@R", "@S"] ∧
      (∀ g ∈ ((ofTerm nestedRows).expandRowsWithin .empty (some 4) ⟨0⟩).1.1,
        ∃ names : String → List String, g = (ofTerm nestedRows).derive (nestedRows.writeRows names) ∧
          WritesRow "@R" (names "@R") ∧ WritesRow "@S" (names "@S")) ∧
      ((ofTerm nestedRows).expandRowsWithin .empty (some 4) ⟨0⟩).1.1.length ≤ 49 := by
  have hlist : nestedRows.isList = true := rfl
  have hquoted : nestedRows.containsQuoted = false := by cbv
  have hrows : nestedRows.rowVariables = ["@R", "@S"] := by cbv
  obtain ⟨hwritten, hlength, -⟩ :=
    @expandRowsWithin_writes .empty (ofTerm nestedRows) nestedRows (some 4) ⟨0⟩ rfl hlist hquoted
  rw [hrows] at hlength
  refine ⟨⟨hlist, hquoted⟩, hrows, fun g hg => ?_, hlength⟩
  obtain ⟨names, hg, -, hnames⟩ := hwritten g hg
  rw [hrows] at hnames
  exact ⟨names, hg, hnames "@R" (by simp), hnames "@S" (by simp)⟩

/-! ## variables of the formula -/

/-- The variables in the place of a row variable do not occur in a formula none of whose atoms is the name
of one of its row variables with a number. -/
theorem Formula.expandRows_fresh {kb : KnowledgeBase} {f : Formula} {t : Term} {s : Supply}
    (hterm : f.term = some t) (hlist : t.isList = true) (hquoted : t.containsQuoted = false)
    (hnew : ∀ row ∈ t.rowVariables, ∀ n : Nat, rowStem row ++ toString n ∉ t.atoms) :
    ∀ g ∈ (f.expandRows kb s).1, ∃ names : String → List String, g = f.derive (t.writeRows names) ∧
      ∀ row ∈ t.rowVariables, WritesRow row (names row) ∧ ∀ a ∈ names row, a ∉ t.atoms := by
  rw [expandRows_eq kb hterm]
  intro g hg
  obtain ⟨u, hu, rfl⟩ := List.mem_map.mp hg
  obtain ⟨names, rfl, hnames⟩ := Term.exists_writeRows_of_mem_expandRows hlist hquoted hu
  refine ⟨names, rfl, fun row hrow => ⟨hnames row hrow, fun a ha => ?_⟩⟩
  obtain ⟨n, rfl⟩ := (hnames row hrow).named a ha
  exact hnew row hrow n

/-- a relation applied to a row variable and to a variable that is spelled like one drawn for it -/
def numberedRow : Term := .app "p" [.atom "@R", .atom "?R5"]

/-- A variable in the place of a row variable may occur in the formula, and the two are then the same. -/
theorem Formula.not_expandRows_fresh : ¬ ∀ (kb : KnowledgeBase) (f : Formula) (t : Term) (s : Supply)
    (names : String → List String), f.term = some t → t.isList = true → t.containsQuoted = false →
      f.derive (t.writeRows names) ∈ (f.expandRows kb s).1 →
      (∀ row ∈ t.rowVariables, WritesRow row (names row)) →
      ∀ row ∈ t.rowVariables, ∀ a ∈ names row, a ∉ t.atoms := by
  intro h
  have hrows : numberedRow.rowVariables = ["@R"] := by cbv
  have hquoted : numberedRow.containsQuoted = false := by cbv
  have hgoverning : (ClausalForm.ofTerm numberedRow ⟨0⟩).1.governing "@R" = ["p"] := by cbv
  have hvalence : unequalArities.valence "p" ≠ 0 := by rw [valence_unequalArities.1]; decide
  -- the counter stands at four when the variables for the row variable are drawn
  have hlimit : (ClausalForm.ofTerm numberedRow ⟨0⟩).1.rowLimit unequalArities "@R" = 2 := by cbv
  have hwritten : numberedRow.writeRow "@R" 2 (ClausalForm.ofTerm numberedRow ⟨0⟩).2 =
      numberedRow.writeRows fun _ => ["?R5", "?R6"] := by cbv
  have hmem : (ofTerm numberedRow).derive (numberedRow.writeRows fun _ => ["?R5", "?R6"]) ∈
      ((ofTerm numberedRow).expandRows unequalArities ⟨0⟩).1 := by
    rw [expandRows_eq unequalArities (f := ofTerm numberedRow) rfl,
      Term.expandRows_of_fixed hrows hquoted (by rw [hgoverning]; simpa using hvalence), hlimit,
      hwritten]
    exact List.mem_singleton_self _
  have hnames : ∀ row ∈ numberedRow.rowVariables, WritesRow row ["?R5", "?R6"] := by
    rw [hrows, List.forall_mem_singleton]
    exact {
      pos := by decide
      le_seven := by decide
      nodup := by decide
      plain := by decide
      named := by
        rw [List.forall_mem_cons, List.forall_mem_singleton]
        exact ⟨⟨5, by cbv⟩, ⟨6, by cbv⟩⟩ }
  exact h unequalArities (ofTerm numberedRow) numberedRow ⟨0⟩ (fun _ => ["?R5", "?R6"]) rfl rfl hquoted
    hmem hnames "@R" (hrows ▸ List.mem_singleton_self _) "?R5" List.mem_cons_self
    (by simp [numberedRow, Term.app])

end OntologyPrep
