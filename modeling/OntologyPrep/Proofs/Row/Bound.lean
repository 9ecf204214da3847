import Mathlib.Tactic
import OntologyPrep.Proofs.Fresh.Drawn
import OntologyPrep.Proofs.Row.Budget

/-!
# How long rows are written out

A row variable is written out with variables drawn one after another (`rowSequences_eq`).  How many
there are is told by what they may be: `RowRange.le_most_ofRelations` and `ClausalForm.le_rowCount` say
which numbers are no larger than the two minima, one over the relations and one over the applications
that the row variable is an argument of.

* `Term.exists_names_of_mem_expandRow`   a row is never empty and never longer than seven; unless one of
                                         its relations takes any number of arguments, it is no longer
                                         than each of them allows;
* `Term.rowsWritten_of_mem_expandRows`   so is every row of a formula with several, in the formula in
                                         which the rows before it have been written out;
* `Term.length_eq_of_splice_eq`          the length of the row can be told from the term;
* `Term.expandRows_not_bounded`          a relation that takes any number of arguments lifts the bounds
                                         of all others.
-/

namespace OntologyPrep

/-! ## drawn variables -/

theorem Supply.drawMany_eq (stem : String) (n : Nat) (s : Supply) : drawMany stem n s =
    ((List.range n).map fun i => stem ++ (s.after (i + 1)).index, s.after n) := by
  induction n generalizing s with
  | zero => simp [drawMany]
  | succ n ih =>
    have hnext : s.next = s.after 1 := by rw [← after_zero s.next, next_after]
    have hrest : drawMany stem n s.next =
        ((List.range n).map fun i => stem ++ (s.after (i + 1 + 1)).index, s.after (n + 1)) := by
      rw [ih, next_after]
      simp only [next_after]
    rw [drawMany, List.range_succ_eq_map, List.map_cons, List.map_map]
    show ((stem ++ s.next.index) :: (drawMany stem n s.next).1, (drawMany stem n s.next).2) = _
    rw [hrest, hnext]
    rfl

/-- the first variables that are drawn to write a row variable out -/
def rowNames (row : String) (n : Nat) (s : Supply) : List String :=
  (List.range n).map fun i => rowStem row ++ (s.after (i + 1)).index

@[simp] theorem length_rowNames (row : String) (n : Nat) (s : Supply) :
    (rowNames row n s).length = n := by
  rw [rowNames, List.length_map, List.length_range]

theorem take_rowNames (row : String) {m n : Nat} (h : m ≤ n) (s : Supply) :
    (rowNames row n s).take m = rowNames row m s := by
  rw [rowNames, ← List.map_take, List.take_range, Nat.min_eq_left h]
  rfl

theorem isPlainVariable_of_mem_rowNames {row : String} {n : Nat} {s : Supply} {a : String}
    (h : a ∈ rowNames row n s) : Name.isPlainVariable a = true := by
  obtain ⟨i, -, rfl⟩ := List.mem_map.mp h
  have hdigits : (s.after (i + 1)).index.toList ≠ [] := by
    rw [Supply.index, show toString (s.after (i + 1)).counter.toNat =
      (s.after (i + 1)).counter.toNat.repr from rfl, Nat.toList_repr]
    exact Nat.toDigits_ne_nil
  obtain ⟨c, cs, hcs⟩ := List.exists_cons_of_ne_nil
    (List.append_ne_nil_of_right_ne_nil row.toList.tail hdigits)
  simp [Name.isPlainVariable, rowStem, hcs]

/-- fewer variables than the counter has values are all different -/
theorem nodup_rowNames (row : String) {n : Nat} (h : n < 2 ^ 32) (s : Supply) :
    (rowNames row n s).Nodup := by
  rw [rowNames, List.Nodup, List.pairwise_map]
  refine List.Pairwise.imp_of_mem (fun {i j} hi hj hne he => hne ?_) List.nodup_range
  have hnumber : (s.after (i + 1)).counter.toNat = (s.after (j + 1)).counter.toNat :=
    Nat.repr_inj.mp ((String.append_right_inj _).mp he)
  have hi' := List.mem_range.mp hi
  have hj' := List.mem_range.mp hj
  have hsame := Supply.after_index_inj (by omega) (by omega) hnumber
  omega

/-- the sequences for a row: all beginnings of the longest one, or that one alone -/
theorem rowSequences_eq (row : String) (range : RowRange) (count : Nat) (s : Supply) :
    rowSequences row range count s =
      (if range.variadic then
        (List.range (count - 1)).map fun n => (rowNames row (n + 1) s).map .atom
      else [(rowNames row (count - 1) s).map .atom], s.after (count - 1)) := by
  have hdrawn : (Supply.drawMany (rowStem row) (count - 1) s).1 = rowNames row (count - 1) s := by
    rw [Supply.drawMany_eq]
    rfl
  unfold rowSequences
  simp only [State.bind_apply, State.pure_apply, hdrawn, List.length_map, length_rowNames]
  rw [Supply.drawMany_eq]
  split
  · refine congrArg (·, _) (List.map_congr_left fun n hn => ?_)
    rw [← List.map_take, take_rowNames row (List.mem_range.mp hn)]
  · rfl

/-! ## the two minima -/

namespace RowRange

/-- the range allows what every relation with a fixed count allows -/
theorem le_most_ofRelations (kb : KnowledgeBase) (relations : List String) (m : Nat) :
    m ≤ (ofRelations kb relations).most ↔
      m ≤ limit ∧ ∀ r ∈ relations, 0 < kb.valence r → m ≤ (kb.valence r).toNat + 1 := by
  have hfold : ∀ (rs : List String) (range : RowRange),
      m ≤ (rs.foldl (fun r relation => r.narrow (kb.valence relation)) range).most ↔
        m ≤ range.most ∧ ∀ r ∈ rs, 0 < kb.valence r → m ≤ (kb.valence r).toNat + 1 := by
    intro rs
    induction rs with
    | nil => simp
    | cons r rs ih =>
      intro range
      have hnarrow : m ≤ (range.narrow (kb.valence r)).most ↔
          m ≤ range.most ∧ (0 < kb.valence r → m ≤ (kb.valence r).toNat + 1) := by
        unfold narrow
        split
        · next hzero => simp [hzero]
        · split
          · next hpos =>
            rw [imp_iff_right hpos]
            exact Nat.le_min
          · next hneg => simp [hneg]
      rw [List.foldl_cons, ih, hnarrow, List.forall_mem_cons, and_assoc]
  exact hfold relations .unknown

/-- some relation takes any number of arguments -/
theorem variadic_ofRelations (kb : KnowledgeBase) (relations : List String) :
    (ofRelations kb relations).variadic = true ↔ ∃ r ∈ relations, kb.valence r = 0 := by
  have hfold : ∀ (rs : List String) (range : RowRange),
      (rs.foldl (fun r relation => r.narrow (kb.valence relation)) range).variadic = true ↔
        range.variadic = true ∨ ∃ r ∈ rs, kb.valence r = 0 := by
    intro rs
    induction rs with
    | nil => simp
    | cons r rs ih =>
      intro range
      have hnarrow : (range.narrow (kb.valence r)).variadic = true ↔
          range.variadic = true ∨ kb.valence r = 0 := by
        unfold narrow
        split
        · next hzero => simp [hzero]
        · next hne => split <;> simp [hne]
      rw [List.foldl_cons, ih, hnarrow, or_assoc]
      simp
  rw [ofRelations, hfold]
  simp [unknown]

end RowRange

namespace ClausalForm

theorem le_rowCount (f : ClausalForm) (row : String) (variadic : Bool) (count m : Nat) :
    m ≤ f.rowCount row variadic count ↔ m ≤ 2 ∨
      (∀ app ∈ f.applicationsTo row, m ≤ app.roomForRow variadic count) ∧
        (f.applicationsTo row = [] → m ≤ count) := by
  have hmax : ∀ k, m ≤ max 2 k ↔ m ≤ 2 ∨ m ≤ k := by omega
  rw [rowCount, hmax]
  refine or_congr_right ?_
  cases hmin : ((f.applicationsTo row).map (Term.roomForRow variadic count)).min? with
  | none =>
    have hnone : f.applicationsTo row = [] := List.map_eq_nil_iff.mp (List.min?_eq_none_iff.mp hmin)
    simp [hnone]
  | some least =>
    have hsome : f.applicationsTo row ≠ [] := by
      rintro hnone
      rw [hnone] at hmin
      cases hmin
    rw [Option.getD_some, List.le_min?_iff hmin, List.forall_mem_map]
    simp [hsome]

end ClausalForm

/-! ## one row variable -/

namespace ClausalForm

theorem mem_governing {f : ClausalForm} {row r : String} :
    r ∈ f.governing row ↔ ∃ app ∈ f.applicationsTo row, app.head? = some r := by
  rw [governing, Std.TreeSet.mem_toList, Std.TreeSet.mem_ofList, List.contains_iff_mem,
    List.mem_filterMap]

/-- the length of the longest row that is tried -/
def rowLimit (kb : KnowledgeBase) (f : ClausalForm) (row : String) : Nat :=
  let range := RowRange.ofRelations kb (f.governing row)
  f.rowCount row range.variadic range.most - 1

/-- the lengths of the rows that take the place of a row variable -/
def rowLengths (kb : KnowledgeBase) (f : ClausalForm) (row : String) : List Nat :=
  if (RowRange.ofRelations kb (f.governing row)).variadic then
    (List.range (f.rowLimit kb row)).map (· + 1)
  else [f.rowLimit kb row]

/-- a row variable of the formula may be written out with that number of variables -/
structure AllowsRow (kb : KnowledgeBase) (f : ClausalForm) (row : String) (length : Nat) : Prop where
  pos : 1 ≤ length
  le_seven : length ≤ 7
  /-- relations with a fixed count are heeded if there are no others -/
  le_valence : (∀ r ∈ f.governing row, kb.valence r ≠ 0) →
    ∀ r ∈ f.governing row, 0 < kb.valence r → length ≤ (kb.valence r).toNat

theorem one_le_rowLimit (kb : KnowledgeBase) (f : ClausalForm) (row : String) :
    1 ≤ f.rowLimit kb row := by
  have htwo : 2 ≤ f.rowCount row (RowRange.ofRelations kb (f.governing row)).variadic
      (RowRange.ofRelations kb (f.governing row)).most := Nat.le_max_left 2 _
  rw [rowLimit]
  omega

theorem rowLimit_le_seven (kb : KnowledgeBase) (f : ClausalForm) (row : String) :
    f.rowLimit kb row ≤ 7 := by
  have hcount := f.rowCount_le row (RowRange.ofRelations kb (f.governing row)).variadic
    (RowRange.most_ofRelations_le kb (f.governing row))
  rw [RowRange.limit] at hcount
  rw [rowLimit]
  omega

/-- the longest row fits every relation, as long as none takes any number of arguments -/
theorem rowLimit_le_valence {kb : KnowledgeBase} {f : ClausalForm} {row r : String}
    (hfixed : ∀ r ∈ f.governing row, kb.valence r ≠ 0) (hr : r ∈ f.governing row)
    (hpos : 0 < kb.valence r) : f.rowLimit kb row ≤ (kb.valence r).toNat := by
  have hvariadic : (RowRange.ofRelations kb (f.governing row)).variadic = false := by
    rw [Bool.eq_false_iff, Ne, RowRange.variadic_ofRelations]
    rintro ⟨r', hr', hzero⟩
    exact hfixed r' hr' hzero
  obtain ⟨-, hmost⟩ := (RowRange.le_most_ofRelations kb (f.governing row) _).mp (Nat.le_refl _)
  have hvalence := hmost r hr hpos
  obtain ⟨app, happ, -⟩ := mem_governing.mp hr
  rw [rowLimit, hvariadic]
  rcases (f.le_rowCount row false (RowRange.ofRelations kb (f.governing row)).most _).mp
    (Nat.le_refl _) with htwo | ⟨hrooms, -⟩
  · omega
  · have hroom := hrooms app happ
    rw [Term.roomForRow, if_neg Bool.false_ne_true] at hroom
    omega

theorem allowsRow_of_mem_rowLengths {kb : KnowledgeBase} {f : ClausalForm} {row : String} {n : Nat}
    (h : n ∈ f.rowLengths kb row) : f.AllowsRow kb row n := by
  have hle : 1 ≤ n ∧ n ≤ f.rowLimit kb row := by
    unfold rowLengths at h
    split at h
    · obtain ⟨i, hi, rfl⟩ := List.mem_map.mp h
      exact ⟨Nat.succ_pos i, List.mem_range.mp hi⟩
    · rw [List.mem_singleton.mp h]
      exact ⟨one_le_rowLimit kb f row, Nat.le_refl _⟩
  exact {
    pos := hle.1
    le_seven := Nat.le_trans hle.2 (rowLimit_le_seven kb f row)
    le_valence := fun hfixed r hr hpos => Nat.le_trans hle.2 (rowLimit_le_valence hfixed hr hpos) }

end ClausalForm

namespace Term

/-- a term with a row variable written out with the first variables drawn for it -/
def writeRow (row : String) (n : Nat) (s : Supply) (t : Term) : Term :=
  t.splice row ((rowNames row n s).map .atom)

theorem expandRow_eq (kb : KnowledgeBase) (row : String) (t : Term) (s : Supply) :
    t.expandRow kb row s =
      (((ClausalForm.ofTerm t s).1.rowLengths kb row).map fun n =>
          t.writeRow row n (ClausalForm.ofTerm t s).2,
        (ClausalForm.ofTerm t s).2.after ((ClausalForm.ofTerm t s).1.rowLimit kb row)) := by
  unfold expandRow ClausalForm.rowLengths ClausalForm.rowLimit
  simp only [State.bind_apply, State.pure_apply, rowSequences_eq]
  split
  · rw [List.map_map, List.map_map]
    rfl
  · rfl

/-- the terms in which a row variable is written out have the same sequence of different variables in
every place where it was, and it is as long as the relations allow -/
theorem exists_names_of_mem_expandRow {kb : KnowledgeBase} {row : String} {t u : Term} {s : Supply}
    (h : u ∈ (t.expandRow kb row s).1) :
    ∃ names : List String, u = t.splice row (names.map .atom) ∧ names.Nodup ∧
      (∀ a ∈ names, Name.isPlainVariable a = true) ∧
      (ClausalForm.ofTerm t s).1.AllowsRow kb row names.length := by
  rw [expandRow_eq] at h
  obtain ⟨n, hn, rfl⟩ := List.mem_map.mp h
  have hallows := ClausalForm.allowsRow_of_mem_rowLengths hn
  have hseven := hallows.le_seven
  refine ⟨rowNames row n _, rfl, nodup_rowNames row (by omega) _,
    fun a ha => isPlainVariable_of_mem_rowNames ha, ?_⟩
  rwa [length_rowNames]

end Term

/-! ## all row variables -/

/-- Row variables are written out in the term one after another, each with a row that is allowed for the
term at that moment, unless it does not occur there. -/
inductive RowsWritten (kb : KnowledgeBase) (t : Term) : List String → Term → Prop where
  | none : RowsWritten kb t [] t
  | absent {rows : List String} {row : String} {u : Term} : RowsWritten kb t rows u → row ∉ u.atoms →
    RowsWritten kb t (rows ++ [row]) u
  | written {rows : List String} {row : String} {u : Term} (s : Supply) (names : List String) :
    RowsWritten kb t rows u → names.Nodup → (∀ a ∈ names, Name.isPlainVariable a = true) →
    (ClausalForm.ofTerm u s).1.AllowsRow kb row names.length →
    RowsWritten kb t (rows ++ [row]) (u.splice row (names.map .atom))

namespace RowExpansion

variable {kb : KnowledgeBase} {budget : Option Nat} {row : String} {t : Term}

/-- finished terms have no row variables -/
def IsSound (e : RowExpansion) : Prop := ∀ v ∈ e.finished, v.containsRowVariable = false

theorem IsSound.put {e : RowExpansion} (h : e.IsSound) (t : Term) : (e.put t).IsSound := by
  unfold RowExpansion.put
  split
  · exact h
  · next hrow =>
    intro v hv
    rcases Distinct.mem_add.mp hv with hv | rfl
    · exact h v hv
    · exact Bool.eq_false_iff.mpr hrow

theorem IsSound.putAll {e : RowExpansion} (h : e.IsSound) (budget : Option Nat) (ts : List Term) :
    (putAll budget ts e).1.IsSound :=
  putAll_keeps (I := IsSound) (fun t _ _ _ he => he.put t) h

theorem IsSound.expandTerms {e : RowExpansion} (h : e.IsSound) (ts : List Term) (s : Supply) :
    (expandTerms kb budget row ts e s).1.IsSound :=
  expandTerms_keeps (I := IsSound) (fun _ _ _ _ he => he.putAll budget _) (fun _ he => he) h s

theorem putAll_none (ts : List Term) (e : RowExpansion) :
    (putAll none ts e).2 = true ∧ ∀ u, (putAll none ts e).1.Holds u ↔ e.Holds u ∨ u ∈ ts := by
  induction ts generalizing e with
  | nil => exact ⟨rfl, fun u => by simp [RowExpansion.putAll]⟩
  | cons t ts ih =>
    rw [RowExpansion.putAll, isFull, Option.any_none, if_neg Bool.false_ne_true]
    refine ⟨(ih _).1, fun u => ?_⟩
    rw [(ih _).2 u, List.mem_cons, ← or_assoc]
    exact or_congr_left ⟨holds_put, holds_put_of_holds⟩

/-- what writing one row variable out keeps of each term, writing some out keeps of all terms held -/
theorem holds_foldlM {Q : List String → Term → Prop}
    (hQ : ∀ {rows row v u}, Name.isRowVariable row = true → Q rows v → Replaces kb row v u →
      Q (rows ++ [row]) u)
    {todo : List String} (htodo : ∀ r ∈ todo, Name.isRowVariable r = true) {e : RowExpansion}
    {rows : List String} (he : e.IsSound) (h : ∀ v, e.Holds v → Q rows v) {s : Supply} {u : Term}
    (hu : ((todo.foldlM (expandRow kb budget) e) s).1.Holds u) : Q (rows ++ todo) u := by
  induction todo generalizing e rows s with
  | nil =>
    rw [List.append_nil]
    exact h u hu
  | cons row todo ih =>
    have hrow := htodo row List.mem_cons_self
    have hnext : (expandRow kb budget e row s).1.IsSound :=
      IsSound.expandTerms (e := { e with pending := [] }) he _ s
    have hheld : ∀ v, (expandRow kb budget e row s).1.Holds v → Q (rows ++ [row]) v := by
      intro v hv
      rcases holds_expandTerms hv with (hfinished | hpending) | ⟨w, hw, hreplaces⟩
      · -- nothing takes the place of a term without row variables but itself
        refine hQ hrow (h v (.inl hfinished)) (.inl ⟨?_, rfl⟩)
        have hnone := he v hfinished
        rw [Term.containsRowVariable, List.any_eq_false] at hnone
        exact Bool.eq_false_iff.mpr fun hmem => hnone row (List.contains_iff_mem.mp hmem) hrow
      · cases hpending
      · exact hQ hrow (h w (.inr hw)) hreplaces
    rw [List.append_cons]
    exact ih (fun r hr => htodo r (List.mem_cons_of_mem _ hr)) hnext hheld hu

/-- one more row variable written out in what has been made of the term -/
theorem rowsWritten_of_replaces {rows : List String} {v u : Term} (h : RowsWritten kb t rows v)
    (hreplaces : Replaces kb row v u) : RowsWritten kb t (rows ++ [row]) u := by
  rcases hreplaces with ⟨hcontains, rfl⟩ | ⟨-, s, hmem⟩
  · exact .absent h fun hmem => by simp [Term.containsAtom, hmem] at hcontains
  · obtain ⟨names, rfl, hnodup, hnames, hallows⟩ := Term.exists_names_of_mem_expandRow hmem
    exact .written s names h hnodup hnames hallows

end RowExpansion

namespace Term

variable {kb : KnowledgeBase} {budget : Option Nat} {row : String} {t u : Term} {s : Supply}

/-- In every term that comes of one without string literals, all its row variables have been written
out, each with a row that was allowed when its turn came. -/
theorem rowsWritten_of_mem_expandRows (hquoted : t.containsQuoted = false)
    (h : u ∈ (t.expandRows kb budget s).1.1) : RowsWritten kb t t.rowVariables u := by
  unfold expandRows at h
  split at h
  · next hnone =>
    rw [hquoted, Bool.or_false, List.isEmpty_iff] at hnone
    rw [hnone, List.mem_singleton.mp h]
    exact .none
  · have hstart : ∀ v, RowExpansion.Holds ⟨[], [t], false⟩ v → RowsWritten kb t [] v := by
      rintro v (hv | hv)
      · cases hv
      · rw [List.mem_singleton.mp hv]
        exact .none
    have hheld := Distinct.mem_addAll.mp h
    exact RowExpansion.holds_foldlM (fun _ hv => RowExpansion.rowsWritten_of_replaces hv)
      (fun r hr => (mem_rowVariables.mp hr).2) (fun v hv => absurd hv List.not_mem_nil) hstart hheld

/-- in a term with one row variable and no string literal, only that is written out -/
theorem expandRows_eq_putAll (hrows : t.rowVariables = [row]) (hquoted : t.containsQuoted = false) :
    (t.expandRows kb none s).1.1 =
      (RowExpansion.putAll none (t.expandRow kb row s).1 ⟨[], [], false⟩).1.terms := by
  have hrow : row ∈ t.atoms := (mem_rowVariables.mp (hrows ▸ List.mem_cons_self)).1
  have hreplaced : RowExpansion.replacements kb row t = t.expandRow kb row :=
    if_pos (List.contains_iff_mem.mpr hrow)
  have hall := (RowExpansion.putAll_none (t.expandRow kb row s).1 ⟨[], [], false⟩).1
  have hend : (RowExpansion.expandRow kb none ⟨[], [t], false⟩ row s).1 =
      (RowExpansion.putAll none (t.expandRow kb row s).1 ⟨[], [], false⟩).1 := by
    rw [RowExpansion.expandRow, RowExpansion.expandTerms_step, hreplaced, if_pos hall,
      RowExpansion.expandTerms, State.pure_apply]
  have hsome : (t.rowVariables.isEmpty || t.containsQuoted) = false := by rw [hrows, hquoted]; rfl
  rw [expandRows, hsome, if_neg Bool.false_ne_true, hrows]
  simp only [State.bind_apply, State.pure_apply, State.foldlM_cons_apply, State.foldlM_nil_apply, hend]

theorem mem_expandRows_iff (hrows : t.rowVariables = [row]) (hquoted : t.containsQuoted = false) :
    u ∈ (t.expandRows kb none s).1.1 ↔ u ∈ (t.expandRow kb row s).1 := by
  rw [expandRows_eq_putAll hrows hquoted, RowExpansion.terms, Distinct.mem_addAll,
    ← RowExpansion.Holds, (RowExpansion.putAll_none _ _).2]
  simp [RowExpansion.Holds]

/-- a term that comes to one term when its only row variable is written out comes to that one -/
theorem expandRows_eq_singleton (hrows : t.rowVariables = [row]) (hquoted : t.containsQuoted = false)
    (h : (t.expandRow kb row s).1 = [u]) : (t.expandRows kb none s).1.1 = [u] := by
  rw [expandRows_eq_putAll hrows hquoted, h, RowExpansion.putAll, RowExpansion.isFull,
    Option.any_none, if_neg Bool.false_ne_true, RowExpansion.putAll, RowExpansion.put]
  split <;> rfl

end Term

/-! ## the length of a row that is written out -/

namespace Term

variable {row : String} {as bs : List Term}

theorem length_splice_items (xs : List Term) (row : String) (sequence : List Term) :
    (xs.flatMap fun x => if x = .atom row then sequence else [x.splice row sequence]).length +
      xs.count (.atom row) = xs.count (.atom row) * sequence.length + xs.length := by
  induction xs with
  | nil => simp
  | cons x xs ih =>
    rw [List.flatMap_cons, List.length_append, List.length_cons]
    by_cases hx : x = .atom row
    · rw [if_pos hx, hx, List.count_cons_self, Nat.add_mul]
      omega
    · rw [if_neg hx, List.count_cons_of_ne hx, List.length_singleton]
      omega

/-- sequences of different lengths make different terms of one that has the row variable -/
theorem length_eq_of_splice_eq {t : Term} (hrow : row ∈ t.atoms) (hne : t ≠ .atom row)
    (h : t.splice row as = t.splice row bs) : as.length = bs.length := by
  match t with
  | .atom a =>
    rw [atoms_atom, List.mem_singleton] at hrow
    exact absurd (by rw [hrow]) hne
  | .list xs =>
    rw [splice_list, splice_list] at h
    have hitems := Term.list.inj h
    by_cases hmem : Term.atom row ∈ xs
    · have hcount : 0 < xs.count (.atom row) := List.count_pos_iff.mpr hmem
      have has := length_splice_items xs row as
      have hbs := length_splice_items xs row bs
      rw [hitems] at has
      exact Nat.eq_of_mul_eq_mul_left hcount (by omega)
    · have hsplice : ∀ sequence : List Term, (xs.flatMap fun x =>
          if x = .atom row then sequence else [x.splice row sequence]) =
            xs.map fun x => x.splice row sequence := by
        intro sequence
        rw [List.map_eq_flatMap]
        refine List.flatMap_congr fun x hx => if_neg ?_
        rintro rfl
        exact hmem hx
      rw [atoms_list] at hrow
      obtain ⟨x, hx, hrow⟩ := List.mem_flatMap.mp hrow
      rw [hsplice, hsplice] at hitems
      refine length_eq_of_splice_eq hrow ?_ (List.map_inj_left.mp hitems x hx)
      rintro rfl
      exact hmem hx

end Term

/-! ## bounds that are lifted -/

/-- a relation of two arguments, and one of any number -/
def mixedArities : KnowledgeBase :=
  KnowledgeBase.empty.tellAll [.app "valence" [.atom "p", .atom "2"],
    .app "instance" [.atom "v", .atom "VariableArityRelation"]]

/-- both relations applied to one row variable -/
def mixedRow : Term := .conj [.app "p" [.atom "@R"], .app "v" [.atom "@R"]]

/-- A relation with a fixed count does not bound the rows of its row variable if another relation of the
row variable takes any number of arguments. -/
theorem Term.expandRows_not_bounded : ¬ ∀ (kb : KnowledgeBase) (t : Term) (row r : String) (s : Supply),
    row ∈ t.rowVariables → r ∈ (ClausalForm.ofTerm t s).1.governing row → 0 < kb.valence r →
      ∀ u ∈ (t.expandRows kb none s).1.1, ∃ names : List String,
        u = t.splice row (names.map .atom) ∧ names.length ≤ (kb.valence r).toNat := by
  intro h
  have hrows : mixedRow.rowVariables = ["@R"] := by cbv
  have hgoverning : (ClausalForm.ofTerm mixedRow ⟨0⟩).1.governing "@R" = ["p", "v"] := by cbv
  have hvalence : mixedArities.valence "p" = 2 := by cbv
  have hlengths : (ClausalForm.ofTerm mixedRow ⟨0⟩).1.rowLengths mixedArities "@R" =
      [1, 2, 3, 4, 5, 6, 7] := by cbv
  have hlong : mixedRow.writeRow "@R" 7 (ClausalForm.ofTerm mixedRow ⟨0⟩).2 ∈
      (mixedRow.expandRows mixedArities none ⟨0⟩).1.1 := by
    rw [mem_expandRows_iff hrows (by cbv), expandRow_eq, hlengths]
    exact List.mem_map_of_mem (by decide)
  obtain ⟨names, hnames, hlength⟩ := h mixedArities mixedRow "@R" "p" ⟨0⟩
    (hrows ▸ List.mem_cons_self) (hgoverning ▸ List.mem_cons_self) (by rw [hvalence]; decide) _ hlong
  -- seven variables have taken the place of the row variable, where two would be allowed
  have hmem : "@R" ∈ mixedRow.atoms := (mem_rowVariables.mp (hrows ▸ List.mem_cons_self)).1
  have hne : mixedRow ≠ .atom "@R" := by rintro ⟨⟩
  have hseven := length_eq_of_splice_eq hmem hne hnames
  rw [List.length_map, List.length_map, length_rowNames] at hseven
  rw [← hseven, hvalence] at hlength
  exact absurd hlength (by decide)

end OntologyPrep
