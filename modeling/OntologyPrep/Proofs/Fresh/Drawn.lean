import Mathlib.Algebra.Group.Nat.Defs
import OntologyPrep.Fresh.Supply
import Std.Data.String.ToNat

/-!
# Names drawn one after another

`Supply.Drawn s names s'` says that the supply `s` gives the names one after another and is left as
`s'`.  A name ends with the number of its draw, so that fewer names than the counter has values are all
different (`Supply.Drawn.nodup`): stems without digits at their end are not mistaken for each other
(`Supply.append_toString_inj`), as equal names with different numbers have stems of which one is the other
one with digits behind it (`Supply.continues_of_append_eq`).
-/

namespace OntologyPrep

/-! ## stems and numbers -/

/-- the stems of the names that are drawn for a clausal form -/
def Supply.stems : List String := ["?VAR", "@VAR", "Sk", "SkFn"]

theorem Supply.variableStem_mem (name : String) : variableStem name ∈ stems := by
  unfold variableStem
  split <;> decide

theorem Supply.isDigit_of_mem_toString {n : Nat} {c : Char} (h : c ∈ (toString n).toList) :
    c.isDigit = true := by
  rw [show toString n = n.repr from rfl, Nat.toList_repr] at h
  exact Nat.isDigit_of_mem_toDigits (by decide) (by decide) h

/-- no digits are at the end of a text -/
def Supply.IsStem (stem : String) : Prop := stem.toList.reverse.takeWhile Char.isDigit = []

theorem Supply.isStem_of_mem {stem : String} (h : stem ∈ stems) : IsStem stem := by
  simp only [stems, List.mem_cons, List.not_mem_nil, or_false] at h
  rcases h with rfl | rfl | rfl | rfl <;> (rw [IsStem]; decide)

/-- the second stem is the first one with digits behind it -/
def Supply.Continues (stem longer : String) : Prop :=
  ∃ digits : List Char, digits ≠ [] ∧ (∀ c ∈ digits, c.isDigit = true) ∧
    longer.toList = stem.toList ++ digits

theorem Supply.Continues.not_isStem {stem longer : String} (h : Continues stem longer) :
    ¬ IsStem longer := by
  obtain ⟨digits, hne, hdigits, hlonger⟩ := h
  obtain ⟨front, last, rfl⟩ := List.eq_nil_or_concat digits |>.resolve_left hne
  rw [IsStem, hlonger, List.concat_eq_append, ← List.append_assoc, List.reverse_append,
    List.reverse_singleton, List.singleton_append,
    List.takeWhile_cons_of_pos (hdigits last (by simp))]
  exact List.cons_ne_nil _ _

/-- equal names with different numbers: a part of one number is in the stem of the other name -/
theorem Supply.continues_of_append_eq {stem stem' : String} {m n : Nat} (hne : m ≠ n)
    (h : stem ++ toString m = stem' ++ toString n) : Continues stem stem' ∨ Continues stem' stem := by
  have hnumber : ∀ {cs : List Char}, (toString m).toList = cs ++ (toString n).toList ∨
      (toString n).toList = cs ++ (toString m).toList → cs ≠ [] := by
    rintro cs (he | he) rfl
    · exact hne (Nat.repr_inj.mp (String.toList_inj.mp he))
    · exact hne (Nat.repr_inj.mp (String.toList_inj.mp he)).symm
  have hchars := congrArg String.toList h
  rw [String.toList_append, String.toList_append] at hchars
  rcases List.append_eq_append_iff.mp hchars with ⟨cs, hstem, he⟩ | ⟨cs, hstem, he⟩
  · refine .inl ⟨cs, hnumber (.inl he), fun c hc => isDigit_of_mem_toString (n := m) ?_, hstem⟩
    rw [he]
    exact List.mem_append_left _ hc
  · refine .inr ⟨cs, hnumber (.inr he), fun c hc => isDigit_of_mem_toString (n := n) ?_, hstem⟩
    rw [he]
    exact List.mem_append_left _ hc

/-- a name says its number and its stem -/
theorem Supply.append_toString_inj {stem stem' : String} (h : IsStem stem) (h' : IsStem stem')
    {m n : Nat} (he : stem ++ toString m = stem' ++ toString n) : m = n ∧ stem = stem' := by
  by_cases hne : m = n
  · rw [hne] at he
    exact ⟨hne, String.append_left_inj _ |>.mp he⟩
  · rcases continues_of_append_eq hne he with hlonger | hlonger
    · exact absurd h' hlonger.not_isStem
    · exact absurd h hlonger.not_isStem

namespace Supply

/-- the supply after some names more -/
def after (s : Supply) (n : Nat) : Supply := ⟨s.counter + UInt32.ofNat n⟩

@[simp] theorem after_zero (s : Supply) : s.after 0 = s := by
  simp [after]

theorem next_after (s : Supply) (n : Nat) : s.next.after n = s.after (n + 1) := by
  rw [after, after, counter_next, mk.injEq, UInt32.ofNat_add, UInt32.add_assoc,
    UInt32.add_comm 1]
  rfl

theorem after_after (s : Supply) (m n : Nat) : (s.after m).after n = s.after (m + n) := by
  rw [after, after, after, mk.injEq, UInt32.ofNat_add, UInt32.add_assoc]

/-- different numbers of names below the number of values of the counter leave different supplies -/
theorem after_index_inj {s : Supply} {m n : Nat} (hm : m < 2 ^ 32) (hn : n < 2 ^ 32)
    (h : (s.after m).counter.toNat = (s.after n).counter.toNat) : m = n := by
  simp only [after, UInt32.toNat_add, UInt32.toNat_ofNat'] at h
  omega

/-- names drawn one after another from a supply, and the supply that is left -/
inductive Drawn : Supply → List String → Supply → Prop where
  | nil (s : Supply) : Drawn s [] s
  | cons {stem : String} {s s' : Supply} {names : List String} : stem ∈ stems →
    Drawn s.next names s' → Drawn s ((stem ++ s.next.index) :: names) s'

theorem Drawn.trans {s m s' : Supply} {xs ys : List String} (h : Drawn s xs m)
    (h' : Drawn m ys s') : Drawn s (xs ++ ys) s' := by
  induction h with
  | nil s => exact h'
  | cons hstem _ ih => exact .cons hstem (ih h')

theorem drawn_draw {stem : String} (h : stem ∈ stems) (s : Supply) :
    Drawn s [(draw stem s).1] (draw stem s).2 := .cons h (.nil _)

theorem Drawn.eq_after {s s' : Supply} {names : List String} (h : Drawn s names s') :
    s' = s.after names.length := by
  induction h with
  | nil s => exact (after_zero s).symm
  | cons _ _ ih => rw [ih, next_after, List.length_cons]

/-- every name drawn says the number of its draw -/
theorem Drawn.exists_of_mem {s s' : Supply} {names : List String} (h : Drawn s names s')
    {a : String} (ha : a ∈ names) : ∃ stem ∈ stems, ∃ n, 0 < n ∧ n ≤ names.length ∧
      a = stem ++ (s.after n).index := by
  induction h with
  | nil s => cases ha
  | @cons stem s s' names hstem _ ih =>
    rcases List.mem_cons.mp ha with rfl | ha
    · refine ⟨stem, hstem, 1, by omega, by simp, ?_⟩
      rw [show s.after 1 = s.next by rw [← after_zero s.next, next_after]]
    · obtain ⟨stem', hstem', n, hpos, hle, rfl⟩ := ih ha
      refine ⟨stem', hstem', n + 1, by omega, by simpa using hle, ?_⟩
      rw [next_after]

/-- names whose numbers do not come round again are all different -/
theorem Drawn.nodup {s s' : Supply} {names : List String} (h : Drawn s names s')
    (hlen : names.length < 2 ^ 32) : names.Nodup := by
  induction h with
  | nil s => exact List.nodup_nil
  | @cons stem s s' names hstem htail ih =>
    rw [List.length_cons] at hlen
    refine List.nodup_cons.mpr ⟨fun hmem => ?_, ih (by omega)⟩
    obtain ⟨stem', hstem', n, hpos, hle, he⟩ := htail.exists_of_mem hmem
    rw [next_after] at he
    have hone : s.next = s.after 1 := by rw [← after_zero s.next, next_after]
    rw [hone] at he
    have hcounter := (append_toString_inj (isStem_of_mem hstem) (isStem_of_mem hstem') he).1
    have := after_index_inj (by omega) (by omega) hcounter
    omega

/-- a name is not drawn once more after some other names -/
theorem Drawn.not_mem_of_after {s m s' : Supply} {xs ys : List String} {k : Nat} (h : Drawn s xs m)
    (h' : Drawn (m.after k) ys s') (hlen : xs.length + k + ys.length < 2 ^ 32) {a : String}
    (ha : a ∈ xs) : a ∉ ys := by
  intro ha'
  obtain ⟨stem, hstem, n, hpos, hle, rfl⟩ := h.exists_of_mem ha
  obtain ⟨stem', hstem', n', hpos', hle', he⟩ := h'.exists_of_mem ha'
  rw [h.eq_after, after_after, after_after] at he
  have hcounter := (append_toString_inj (isStem_of_mem hstem) (isStem_of_mem hstem') he).1
  have hsame := after_index_inj (by omega) (by omega) hcounter
  omega

end Supply

end OntologyPrep
