import OntologyPrep.Proofs.Predicate.Rows

/-!
# The order of the questions

A join starts from the rows of its key, the first question with answers (`Join.key?`), and keeps those
that agree with some row of every other question with answers (`Join.offers_iff`).  Rows agree in pairs,
through the variables that both have, so that what the join offers for the variable can depend on which
question is the key, and questions that are asked at the same place are asked in the order in which they
are given.

* `Join.offers_perm`       questions in another order offer the same values if the key is the same, or
                           each other question shares the same variables with both keys;
* `Join.not_offers_perm`   where a third question shares different variables with the two keys, the order
                           can decide whether there is a join at all.
-/

namespace OntologyPrep

/-! ## agreement -/

namespace Bindings

variable {row other : Bindings}

theorem agrees_iff : row.agrees other = true ↔
    ∀ (a : String) (v w : Term), row[a]? = some v → other[a]? = some w → v = w := by
  rw [agrees, List.all_eq_true]
  constructor
  · intro h a v w hv hw
    have ha := h (a, w) (Std.TreeMap.mem_toList_iff_getElem?_eq_some.mpr hw)
    rw [hv] at ha
    simpa using ha
  · intro h p hp
    have hw := Std.TreeMap.mem_toList_iff_getElem?_eq_some.mp hp
    cases hv : row[p.1]? with
    | none => rfl
    | some v => simpa using h p.1 v p.2 hv hw

theorem agrees_self (row : Bindings) : row.agrees row = true :=
  agrees_iff.mpr fun _ _ _ hv hw => Option.some.inj (hv.symm.trans hw)

theorem agrees_comm (h : row.agrees other = true) : other.agrees row = true :=
  agrees_iff.mpr fun a v w hv hw => (agrees_iff.mp h a w v hw hv).symm

end Bindings

/-! ## what a join offers -/

namespace KnowledgeBase

/-- the literal has an answer in which the variable is a constant -/
def hasRows (kb : KnowledgeBase) (name : String) (l : Literal) : Bool :=
  !(kb.rowsFor name l).isEmpty

variable {kb : KnowledgeBase} {name : String} {l : Literal} {row : Bindings}

/-- a row for a literal gives all variables of its arguments a value, and no others -/
theorem mem_of_mem_rowsFor (h : row ∈ kb.rowsFor name l) {a : String} :
    a ∈ row ↔ a ∈ l.argNames := by
  obtain ⟨t, _, hb⟩ := List.mem_filterMap.mp (List.mem_filter.mp h).1
  exact Literal.mem_bindings? hb

theorem exists_value_of_mem_rowsFor (h : row ∈ kb.rowsFor name l) : ∃ v, row[name]? = some v := by
  obtain ⟨v, hv, _⟩ := (Option.any_eq_true _ _).mp (List.mem_filter.mp h).2
  exact ⟨v, hv⟩

end KnowledgeBase

namespace Join

variable {kb : KnowledgeBase} {name : String} {ls ls' : List Literal} {value : Term}

/-- the first question with answers -/
def key? (kb : KnowledgeBase) (name : String) (templates : List Literal) : Option Literal :=
  (templates.mergeSort Literal.asksBefore).find? (kb.hasRows name)

/-- the questions lead to a join in which some row has the value for the variable -/
def Offers (kb : KnowledgeBase) (name : String) (templates : List Literal) (value : Term) : Prop :=
  ∃ j, ofTemplates? kb name templates = some j ∧ value ∈ j.values name

/-- the row agrees with some row of each question that has answers -/
def FitsAll (kb : KnowledgeBase) (name : String) (ls : List Literal) (row : Bindings) : Prop :=
  ∀ l ∈ ls, kb.hasRows name l = true → ∃ other ∈ kb.rowsFor name l, row.agrees other = true

theorem fitsAll_cons {l : Literal} {row : Bindings} : FitsAll kb name (l :: ls) row ↔
    (kb.hasRows name l = true → ∃ other ∈ kb.rowsFor name l, row.agrees other = true) ∧
      FitsAll kb name ls row := List.forall_mem_cons

theorem FitsAll.perm {row : Bindings} (h : FitsAll kb name ls row) (hperm : ls.Perm ls') :
    FitsAll kb name ls' row := fun l hl => h l (hperm.mem_iff.mpr hl)

/-- a question without answers is passed over -/
theorem add_of_not_hasRows {l : Literal} (h : kb.hasRows name l = false) (j : Option Join) :
    add j l (kb.rowsFor name l) = j := by
  have hnil : kb.rowsFor name l = [] := by simpa [KnowledgeBase.hasRows] using h
  rw [hnil, add]

/-- a question with answers keeps the rows that agree with one of them -/
theorem add_some_of_hasRows {l : Literal} (h : kb.hasRows name l = true) (j : Join) :
    add (some j) l (kb.rowsFor name l) =
      some { j with used := j.used ++ [l],
                    rows := j.rows.filter fun r => (kb.rowsFor name l).any r.agrees } := by
  unfold add
  split
  · next hnil => simp [KnowledgeBase.hasRows, hnil] at h
  · next hsome => cases hsome
  · next hsome => cases hsome; rfl

/-- more questions keep the rows that fit them all -/
theorem foldl_add_some (kb : KnowledgeBase) (name : String) (ls : List Literal) (j : Join) :
    ∃ i, ls.foldl (fun j l => add j l (kb.rowsFor name l)) (some j) = some i ∧
      ∀ row, row ∈ i.rows ↔ row ∈ j.rows ∧ FitsAll kb name ls row := by
  induction ls generalizing j with
  | nil => exact ⟨j, rfl, fun row => by simp [FitsAll]⟩
  | cons l ls ih =>
    rw [List.foldl_cons]
    cases hl : kb.hasRows name l with
    | false =>
      obtain ⟨i, hi, hrows⟩ := ih j
      refine ⟨i, by rw [add_of_not_hasRows hl]; exact hi, fun row => ?_⟩
      rw [hrows, fitsAll_cons, hl]
      simp
    | true =>
      rw [add_some_of_hasRows hl]
      obtain ⟨i, hi, hrows⟩ := ih { j with used := j.used ++ [l],
                                           rows := j.rows.filter fun r =>
                                             (kb.rowsFor name l).any r.agrees }
      refine ⟨i, hi, fun row => ?_⟩
      rw [hrows, fitsAll_cons, List.mem_filter, List.any_eq_true, and_assoc]
      simp [hl]

/-- questions one after another: the rows of the first one with answers that fit all the others -/
theorem foldl_add_none (kb : KnowledgeBase) (name : String) (ls : List Literal) :
    match ls.find? (kb.hasRows name) with
    | none => ls.foldl (fun j l => add j l (kb.rowsFor name l)) none = none
    | some k => ∃ j, ls.foldl (fun j l => add j l (kb.rowsFor name l)) none = some j ∧
        ∀ row, row ∈ j.rows ↔ row ∈ kb.rowsFor name k ∧ FitsAll kb name ls row := by
  induction ls with
  | nil => rfl
  | cons l ls ih =>
    cases hl : kb.hasRows name l with
    | false =>
      rw [List.find?_cons, hl, List.foldl_cons, add_of_not_hasRows hl]
      simp only [fitsAll_cons, hl, Bool.false_eq_true, false_implies, true_and]
      exact ih
    | true =>
      rw [List.find?_cons, hl, List.foldl_cons]
      have hkey : add none l (kb.rowsFor name l) = some ⟨l, [l], kb.rowsFor name l⟩ := by
        unfold add
        split
        · next hnil => simp [KnowledgeBase.hasRows, hnil] at hl
        · rfl
        · next hsome => cases hsome
      obtain ⟨j, hj, hrows⟩ := foldl_add_some kb name ls
        ⟨l, [l], kb.rowsFor name l⟩
      refine ⟨j, by rw [hkey]; exact hj, fun row => ?_⟩
      rw [hrows, fitsAll_cons]
      -- a row of the key agrees with itself
      exact ⟨fun h => ⟨h.1, fun _ => ⟨row, h.1, row.agrees_self⟩, h.2⟩, fun h => ⟨h.1, h.2.2⟩⟩

theorem mem_values {j : Join} :
    value ∈ j.values name ↔ ∃ row ∈ j.rows, row[name]? = some value := by
  rw [values, Distinct.ofList, Distinct.mem_addAll, List.mem_filterMap]
  exact or_iff_right List.not_mem_nil

/-- what is offered are the values of those rows of the key that fit all questions -/
theorem offers_iff : Offers kb name ls value ↔
    ∃ k, key? kb name ls = some k ∧ ∃ row ∈ kb.rowsFor name k,
      row[name]? = some value ∧ FitsAll kb name ls row := by
  have hfold := foldl_add_none kb name (ls.mergeSort Literal.asksBefore)
  have hfits : ∀ row, FitsAll kb name (ls.mergeSort Literal.asksBefore) row ↔
      FitsAll kb name ls row := fun row =>
    ⟨fun h => h.perm (List.mergeSort_perm _ _), fun h => h.perm (List.mergeSort_perm _ _).symm⟩
  rw [Offers, key?, ofTemplates?]
  cases hkey : (ls.mergeSort Literal.asksBefore).find? (kb.hasRows name) with
  | none =>
    rw [hkey] at hfold
    rw [hfold]
    simp
  | some k =>
    rw [hkey] at hfold
    obtain ⟨j, hj, hrows⟩ := hfold
    rw [hj]
    constructor
    · rintro ⟨i, hi, hvalue⟩
      obtain ⟨hi, _⟩ := Option.filter_eq_some_iff.mp hi
      cases hi
      obtain ⟨row, hrow, hname⟩ := mem_values.mp hvalue
      obtain ⟨hrow, hfit⟩ := (hrows row).mp hrow
      exact ⟨k, rfl, row, hrow, hname, (hfits row).mp hfit⟩
    · rintro ⟨k', hk', row, hrow, hname, hfit⟩
      cases hk'
      have hmem := (hrows row).mpr ⟨hrow, (hfits row).mpr hfit⟩
      refine ⟨j, Option.filter_eq_some_iff.mpr ⟨rfl, ?_⟩, mem_values.mpr ⟨row, hmem, hname⟩⟩
      simpa using List.ne_nil_of_mem hmem

/-- there is a join exactly if some value is offered -/
theorem isSome_ofTemplates?_iff :
    (ofTemplates? kb name ls).isSome = true ↔ ∃ value, Offers kb name ls value := by
  constructor
  · intro h
    obtain ⟨j, hj⟩ := Option.isSome_iff_exists.mp h
    have hne : j.rows ≠ [] := by simpa using (Option.filter_eq_some_iff.mp hj).2
    obtain ⟨row, hrow⟩ := List.exists_mem_of_ne_nil _ hne
    obtain ⟨l, hl⟩ := answers_ofTemplates? hj row hrow
    obtain ⟨value, hvalue⟩ := kb.exists_value_of_mem_rowsFor hl
    exact ⟨value, j, hj, mem_values.mpr ⟨row, hrow, hvalue⟩⟩
  · rintro ⟨_, j, hj, _⟩
    rw [hj]
    rfl

/-! ## another order -/

theorem of_key? {k : Literal} (h : key? kb name ls = some k) :
    k ∈ ls ∧ kb.hasRows name k = true :=
  ⟨List.mem_mergeSort.mp (List.mem_of_find?_eq_some h), List.find?_some h⟩

/-- each other question with answers has the same variables in common with both -/
def SharedAlike (kb : KnowledgeBase) (name : String) (ls : List Literal) (k k' : Literal) : Prop :=
  ∀ l ∈ ls, kb.hasRows name l = true → l ≠ k → l ≠ k' →
    ∀ a ∈ l.argNames, a ∈ k.argNames ↔ a ∈ k'.argNames

/-- a row of one key that fits all questions can be exchanged for a row of the other one -/
theorem FitsAll.exchange {k k' : Literal} (hshared : SharedAlike kb name ls k k') (hk' : k' ∈ ls)
    (hrows' : kb.hasRows name k' = true) {row : Bindings} (hrow : row ∈ kb.rowsFor name k)
    (hfit : FitsAll kb name ls row) :
    ∃ row' ∈ kb.rowsFor name k', row'[name]? = row[name]? ∧ FitsAll kb name ls row' := by
  obtain ⟨row', hrow', hagrees⟩ := hfit k' hk' hrows'
  obtain ⟨v, hv⟩ := kb.exists_value_of_mem_rowsFor hrow
  obtain ⟨v', hv'⟩ := kb.exists_value_of_mem_rowsFor hrow'
  have hname : row'[name]? = row[name]? := by
    rw [hv, hv', Bindings.agrees_iff.mp hagrees name v v' hv hv']
  refine ⟨row', hrow', hname, fun l hl hasRows => ?_⟩
  by_cases hlk : l = k
  · exact ⟨row, hlk ▸ hrow, Bindings.agrees_comm hagrees⟩
  by_cases hlk' : l = k'
  · exact ⟨row', hlk' ▸ hrow', row'.agrees_self⟩
  -- what the rows of `l` and `k'` share, the row of `k` has too
  obtain ⟨other, hother, hfits⟩ := hfit l hl hasRows
  refine ⟨other, hother, Bindings.agrees_iff.mpr fun a w u hw hu => ?_⟩
  have hak' : a ∈ k'.argNames :=
    (kb.mem_of_mem_rowsFor hrow').mp (Std.TreeMap.mem_iff_isSome_getElem?.mpr (by rw [hw]; rfl))
  have hal : a ∈ l.argNames :=
    (kb.mem_of_mem_rowsFor hother).mp (Std.TreeMap.mem_iff_isSome_getElem?.mpr (by rw [hu]; rfl))
  have hak := (kb.mem_of_mem_rowsFor hrow).mpr ((hshared l hl hasRows hlk hlk' a hal).mpr hak')
  obtain ⟨x, hx⟩ := Option.isSome_iff_exists.mp (Std.TreeMap.mem_iff_isSome_getElem?.mp hak)
  rw [← Bindings.agrees_iff.mp hagrees a x w hx hw]
  exact Bindings.agrees_iff.mp hfits a x u hx hu

theorem Offers.perm (h : Offers kb name ls value) (hperm : ls.Perm ls')
    (hkeys : ∀ k k', key? kb name ls = some k → key? kb name ls' = some k' →
      SharedAlike kb name ls k k') : Offers kb name ls' value := by
  obtain ⟨k, hk, row, hrow, hname, hfit⟩ := offers_iff.mp h
  obtain ⟨k', hk'⟩ : ∃ k', key? kb name ls' = some k' := by
    refine Option.isSome_iff_exists.mp (List.find?_isSome.mpr ⟨k, ?_, (of_key? hk).2⟩)
    exact List.mem_mergeSort.mpr (hperm.mem_iff.mp (of_key? hk).1)
  obtain ⟨hmem', hrows'⟩ := of_key? hk'
  obtain ⟨row', hrow', hsame, hfit'⟩ := hfit.exchange (hkeys k k' hk hk')
    (hperm.mem_iff.mpr hmem') hrows' hrow
  exact offers_iff.mpr ⟨k', hk', row', hrow', hsame.trans hname, hfit'.perm hperm⟩

/-- The same questions in another order lead to a join if and only if they do in the one order, and offer
the same values, provided that the key stays the same or that each other question with answers has the
same variables in common with both keys. -/
theorem offers_perm (hperm : ls.Perm ls')
    (hkeys : ∀ k k', key? kb name ls = some k → key? kb name ls' = some k' → k ≠ k' →
      SharedAlike kb name ls k k') :
    ((ofTemplates? kb name ls).isSome = (ofTemplates? kb name ls').isSome) ∧
      ∀ value, Offers kb name ls value ↔ Offers kb name ls' value := by
  have hshared : ∀ k k', key? kb name ls = some k → key? kb name ls' = some k' →
      SharedAlike kb name ls k k' := by
    intro k k' hk hk'
    by_cases he : k = k'
    · exact fun l _ _ _ _ a _ => by rw [he]
    · exact hkeys k k' hk hk' he
  have hoffers : ∀ value, Offers kb name ls value ↔ Offers kb name ls' value := by
    intro value
    refine ⟨fun h => h.perm hperm hshared, fun h => h.perm hperm.symm ?_⟩
    intro k' k hk' hk l hl hasRows hlk' hlk a ha
    exact (hshared k k' hk hk' l (hperm.mem_iff.mpr hl) hasRows hlk hlk' a ha).symm
  refine ⟨?_, hoffers⟩
  rw [Bool.eq_iff_iff, isSome_ofTemplates?_iff, isSome_ofTemplates?_iff]
  exact exists_congr hoffers

/-- `(a p x)`, `(b p y)` and `(c p z)` -/
def threeFacts : KnowledgeBase := KnowledgeBase.empty.tellAll
  [.app "a" [.atom "p", .atom "x"], .app "b" [.atom "p", .atom "y"], .app "c" [.atom "p", .atom "z"]]

/-- the question for the pairs of a relation whose first part is `?V` -/
def pairsOf (relation second : String) : Literal := ⟨relation, [.atom "?V", .atom second]⟩

/-- three questions that share nothing but `?V`, in two orders with different keys -/
theorem offers_perm_threeFacts :
    key? threeFacts "?V" [pairsOf "a" "?X", pairsOf "b" "?Y", pairsOf "c" "?Z"] =
        some (pairsOf "a" "?X") ∧
      key? threeFacts "?V" [pairsOf "c" "?Z", pairsOf "b" "?Y", pairsOf "a" "?X"] =
        some (pairsOf "c" "?Z") ∧
      (ofTemplates? threeFacts "?V" [pairsOf "a" "?X", pairsOf "b" "?Y", pairsOf "c" "?Z"]).isSome =
        (ofTemplates? threeFacts "?V"
          [pairsOf "c" "?Z", pairsOf "b" "?Y", pairsOf "a" "?X"]).isSome := by
  have hkey : key? threeFacts "?V" [pairsOf "a" "?X", pairsOf "b" "?Y", pairsOf "c" "?Z"] =
      some (pairsOf "a" "?X") := by cbv
  have hkey' : key? threeFacts "?V" [pairsOf "c" "?Z", pairsOf "b" "?Y", pairsOf "a" "?X"] =
      some (pairsOf "c" "?Z") := by cbv
  refine ⟨hkey, hkey', (offers_perm (by decide) ?_).1⟩
  intro k k' hk hk' _ l hl _ hlk hlk' a ha
  obtain rfl := Option.some.inj (hkey.symm.trans hk)
  obtain rfl := Option.some.inj (hkey'.symm.trans hk')
  obtain rfl : l = pairsOf "b" "?Y" := by
    simp only [List.mem_cons, List.not_mem_nil, or_false] at hl
    exact (hl.resolve_left hlk).resolve_right hlk'
  have hx : (pairsOf "a" "?X").argNames = ["?V", "?X"] := by cbv
  have hy : (pairsOf "b" "?Y").argNames = ["?V", "?Y"] := by cbv
  have hz : (pairsOf "c" "?Z").argNames = ["?V", "?Z"] := by cbv
  rw [hy] at ha
  rw [hx, hz]
  simp only [List.mem_cons, List.not_mem_nil, or_false] at ha ⊢
  rcases ha with rfl | rfl <;> decide

/-- with the third question on the variable of the first one there is a join only if the second one is
the key: its rows do not bind what the other two have to agree on -/
theorem not_offers_perm : ¬ ∀ (kb : KnowledgeBase) (name : String) (ls ls' : List Literal),
    ls.Perm ls' → ((ofTemplates? kb name ls).isSome = (ofTemplates? kb name ls').isSome) ∧
      ∀ value, Offers kb name ls value ↔ Offers kb name ls' value := by
  intro h
  have hsome : (ofTemplates? threeFacts "?V"
      [pairsOf "b" "?Y", pairsOf "a" "?X", pairsOf "c" "?X"]).isSome = true := by cbv
  have hnone : (ofTemplates? threeFacts "?V"
      [pairsOf "a" "?X", pairsOf "b" "?Y", pairsOf "c" "?X"]).isSome = false := by cbv
  have hperm : [pairsOf "b" "?Y", pairsOf "a" "?X", pairsOf "c" "?X"].Perm
      [pairsOf "a" "?X", pairsOf "b" "?Y", pairsOf "c" "?X"] := .swap _ _ _
  have hsame := (h threeFacts "?V" _ _ hperm).1
  rw [hsome, hnone] at hsame
  cases hsame

end Join

end OntologyPrep
