/-!
# Lists without repetition

`Distinct.add` puts an element behind a list unless the list has it already, so that the elements
stay in the order in which they first came.  `List.eraseDups` leaves the same order; that it leaves
each element once, takes nothing but repetitions away, and goes with leaving out other elements, is said
at the end.
-/

namespace OntologyPrep.Distinct

variable {α : Type} [DecidableEq α]

/-- one more element behind the others, unless it is among them -/
def add (xs : List α) (x : α) : List α := if x ∈ xs then xs else xs ++ [x]

/-- some more elements, from left to right -/
def addAll (xs ys : List α) : List α := ys.foldl add xs

/-- the elements of a list, each once -/
def ofList (xs : List α) : List α := addAll [] xs

/-- the same elements, whatever their order, for lists without repetition -/
def sameElements (xs ys : List α) : Bool := xs.length = ys.length && xs.all fun x => x ∈ ys

theorem mem_add {xs : List α} {x y : α} : y ∈ add xs x ↔ y ∈ xs ∨ y = x := by
  unfold add
  split
  · next h =>
    constructor
    · exact Or.inl
    · rintro (hy | rfl)
      · exact hy
      · exact h
  · simp

theorem mem_addAll {xs ys : List α} {y : α} : y ∈ addAll xs ys ↔ y ∈ xs ∨ y ∈ ys := by
  induction ys generalizing xs with
  | nil => simp [addAll]
  | cons z zs ih =>
    show y ∈ addAll (add xs z) zs ↔ _
    rw [ih, mem_add, List.mem_cons, or_assoc]

theorem nodup_add {xs : List α} (h : xs.Nodup) (x : α) : (add xs x).Nodup := by
  unfold add
  split
  · exact h
  · next hx =>
    rw [List.nodup_append]
    refine ⟨h, by simp, fun a ha b hb hab => ?_⟩
    rw [List.mem_singleton] at hb
    exact hx (hb ▸ hab ▸ ha)

theorem nodup_addAll {xs : List α} (h : xs.Nodup) (ys : List α) : (addAll xs ys).Nodup := by
  induction ys generalizing xs with
  | nil => exact h
  | cons y ys ih => exact ih (nodup_add h y)

/-! ## the first occurrences of a list -/

/-- each element at its first occurrence, once -/
theorem nodup_eraseDups {β : Type} [BEq β] [LawfulBEq β] (xs : List β) : xs.eraseDups.Nodup := by
  match xs with
  | [] => exact List.nodup_nil
  | x :: xs =>
    rw [List.eraseDups_cons, List.nodup_cons]
    refine ⟨fun hmem => ?_, nodup_eraseDups _⟩
    rw [List.mem_eraseDups, List.mem_filter] at hmem
    simpa using hmem.2
termination_by xs.length
decreasing_by exact Nat.lt_succ_of_le (List.length_filter_le _ _)

theorem eraseDups_sublist {β : Type} [BEq β] [LawfulBEq β] (xs : List β) :
    xs.eraseDups.Sublist xs := by
  match xs with
  | [] => exact List.Sublist.slnil
  | x :: xs =>
    rw [List.eraseDups_cons]
    exact ((eraseDups_sublist _).trans List.filter_sublist).cons_cons x
termination_by xs.length
decreasing_by exact Nat.lt_succ_of_le (List.length_filter_le _ _)

/-- to leave elements out and to leave repetitions out can be done in either order -/
theorem eraseDups_filter {β : Type} [BEq β] [LawfulBEq β] (p : β → Bool) (xs : List β) :
    (xs.filter p).eraseDups = xs.eraseDups.filter p := by
  match xs with
  | [] => rfl
  | x :: xs =>
    have ih := eraseDups_filter p (xs.filter fun y => !y == x)
    rw [List.filter_filter] at ih
    rw [List.eraseDups_cons, List.filter_cons, List.filter_cons]
    split
    · rw [List.eraseDups_cons, List.filter_filter, ← ih]
      simp only [Bool.and_comm]
    · next hx =>
      -- an element that is left out is not missed among the others
      have hother : xs.filter p = xs.filter fun y => p y && !y == x := by
        refine List.filter_congr fun y _ => ?_
        by_cases he : y = x
        · simp [he, hx]
        · simp [he]
      rw [hother, ih]
termination_by xs.length
decreasing_by exact Nat.lt_succ_of_le (List.length_filter_le _ _)

end OntologyPrep.Distinct
