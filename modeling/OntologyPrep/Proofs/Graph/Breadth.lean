import OntologyPrep.Graph.Breadth

/-!
# What a breadth-first search visits

Nothing is visited but what the steps lead to from the queue (`Graph.of_mem_explore`).  With enough
room, which `Graph.Fits` says, everything is (`Graph.reach_closed`), and more room makes no difference
(`Graph.reach_add`): every visit takes one name off the names that are waiting in the queue or have not
been seen.
-/

namespace OntologyPrep.Graph

variable {next : String → List String} {seen : Std.TreeSet String} {xs : List String} {x : String}

/-! ## discovering -/

theorem mem_seen_discover : x ∈ (discover seen xs).2 ↔ x ∈ seen ∨ x ∈ xs := by
  induction xs generalizing seen with
  | nil => simp [discover]
  | cons y ys ih =>
    rw [discover]
    split
    · next h =>
      rw [ih, List.mem_cons]
      constructor
      · rintro (hx | hx)
        · exact .inl hx
        · exact .inr (.inr hx)
      · rintro (hx | rfl | hx)
        · exact .inl hx
        · exact .inl (Std.TreeSet.contains_iff_mem.mp h)
        · exact .inr hx
    · simp only [ih, Std.TreeSet.mem_insert, Std.LawfulEqCmp.compare_eq_iff_eq, List.mem_cons]
      rw [or_comm (a := y = x), or_assoc, eq_comm (a := y)]

/-- the names that are discovered have not been seen before -/
theorem mem_discover : x ∈ (discover seen xs).1 ↔ x ∈ xs ∧ x ∉ seen := by
  induction xs generalizing seen with
  | nil => simp [discover]
  | cons y ys ih =>
    rw [discover]
    split
    · next h =>
      have hy : y ∈ seen := Std.TreeSet.contains_iff_mem.mp h
      rw [ih, List.mem_cons]
      constructor
      · exact fun hx => ⟨.inr hx.1, hx.2⟩
      · rintro ⟨rfl | hx, hseen⟩
        · exact absurd hy hseen
        · exact ⟨hx, hseen⟩
    · next h =>
      have hy : y ∉ seen := fun hy => h (Std.TreeSet.contains_iff_mem.mpr hy)
      simp only [List.mem_cons, ih, Std.TreeSet.mem_insert, Std.LawfulEqCmp.compare_eq_iff_eq, not_or]
      constructor
      · rintro (rfl | ⟨hx, -, hseen⟩)
        · exact ⟨.inl rfl, hy⟩
        · exact ⟨.inr hx, hseen⟩
      · rintro ⟨hx, hseen⟩
        by_cases he : x = y
        · exact .inl he
        · exact .inr ⟨hx.resolve_left he, fun h => he h.symm, hseen⟩

/-! ## exploring -/

/-- what holds of the queue and is passed on by the steps holds of all that is visited -/
theorem of_mem_explore {P : String → Prop} (hnext : ∀ x, P x → ∀ y ∈ next x, P y) {bound : Nat}
    {queue : List String} (hqueue : ∀ x ∈ queue, P x) (h : x ∈ explore next bound seen queue) :
    P x := by
  induction bound generalizing seen queue with
  | zero => cases h
  | succ bound ih =>
    match queue with
    | [] => cases h
    | q :: queue =>
      rw [explore] at h
      rcases List.mem_cons.mp h with rfl | h
      · exact hqueue _ (by simp)
      · refine ih (fun y hy => ?_) h
        rcases List.mem_append.mp hy with hy | hy
        · exact hqueue y (by simp [hy])
        · exact hnext q (hqueue q (by simp)) y (mem_discover.mp hy).1

/-- a name that is visited was waiting in the queue or had not been seen -/
theorem mem_queue_or_unseen {bound : Nat} {queue : List String}
    (h : x ∈ explore next bound seen queue) : x ∈ queue ∨ x ∉ seen := by
  induction bound generalizing seen queue with
  | zero => cases h
  | succ bound ih =>
    match queue with
    | [] => cases h
    | q :: queue =>
      rw [explore] at h
      rcases List.mem_cons.mp h with rfl | h
      · exact .inl List.mem_cons_self
      · rcases ih h with hx | hx
        · rcases List.mem_append.mp hx with hx | hx
          · exact .inl (List.mem_cons_of_mem _ hx)
          · exact .inr (mem_discover.mp hx).2
        · exact .inr fun hseen => hx (mem_seen_discover.mpr (.inl hseen))

/-- the number of names, among some, that have not been seen -/
def unseen (names : List String) (seen : Std.TreeSet String) : Nat :=
  names.countP fun x => !seen.contains x

theorem unseen_insert_lt {names : List String} (hx : x ∈ names) (hseen : x ∉ seen) :
    unseen names (seen.insert x) < unseen names seen := by
  induction names with
  | nil => cases hx
  | cons y names ih =>
    have hle : unseen names (seen.insert x) ≤ unseen names seen := by
      refine List.countP_mono_left fun z _ hz => ?_
      simp only [Std.TreeSet.contains_insert, Bool.not_or, Bool.and_eq_true] at hz
      exact hz.2
    rw [unseen, unseen, List.countP_cons, List.countP_cons, ← unseen, ← unseen]
    by_cases he : y = x
    · have hnew : seen.contains y = false :=
        Bool.eq_false_iff.mpr fun h => hseen (he ▸ Std.TreeSet.contains_iff_mem.mp h)
      simp only [he ▸ hnew, he, Std.TreeSet.contains_insert_self]
      simp
      omega
    · have hlt := ih ((List.mem_cons.mp hx).resolve_left fun h => he h.symm)
      have hsame : (seen.insert x).contains y = seen.contains y := by
        rw [Std.TreeSet.contains_insert, beq_false_of_ne, Bool.false_or]
        exact fun h => he (Std.LawfulEqCmp.compare_eq_iff_eq.mp h).symm
      rw [hsame]
      omega

/-- what is discovered is unseen no longer -/
theorem length_discover_le {names : List String} (h : ∀ x ∈ xs, x ∈ names) :
    (discover seen xs).1.length + unseen names (discover seen xs).2 ≤ unseen names seen := by
  induction xs generalizing seen with
  | nil => simp [discover]
  | cons y ys ih =>
    obtain ⟨hy, hys⟩ := List.forall_mem_cons.mp h
    rw [discover]
    split
    · exact ih hys
    · next hseen =>
      have hrest := @ih (seen.insert y) hys
      have hlt : unseen names (seen.insert y) < unseen names seen :=
        unseen_insert_lt hy fun h => hseen (Std.TreeSet.contains_iff_mem.mpr h)
      simp only [List.length_cons]
      omega

/-- the search stays within some names, and has room for a visit to each that may still come -/
structure Fits (next : String → List String) (names : List String) (bound : Nat)
    (seen : Std.TreeSet String) (queue : List String) : Prop where
  stays : ∀ x ∈ names, ∀ y ∈ next x, y ∈ names
  waiting : ∀ x ∈ queue, x ∈ names
  room : unseen names seen + queue.length ≤ bound

variable {names queue : List String} {bound : Nat}

theorem Fits.step (h : Fits next names (bound + 1) seen (x :: queue)) :
    Fits next names bound (discover seen (next x)).2 (queue ++ (discover seen (next x)).1) := by
  obtain ⟨hx, hqueue⟩ := List.forall_mem_cons.mp h.waiting
  have hnew : (discover seen (next x)).1.length + unseen names (discover seen (next x)).2 ≤
      unseen names seen := length_discover_le (h.stays x hx)
  have hroom := h.room
  refine ⟨h.stays, fun y hy => ?_, ?_⟩
  · rcases List.mem_append.mp hy with hy | hy
    · exact hqueue y hy
    · exact h.stays x hx y (mem_discover.mp hy).1
  · rw [List.length_cons] at hroom
    rw [List.length_append]
    omega

/-- all that is waiting is visited -/
theorem Fits.subset (h : Fits next names bound seen queue) : queue ⊆ explore next bound seen queue := by
  induction bound generalizing seen queue with
  | zero =>
    have hroom := h.room
    rw [List.eq_nil_of_length_eq_zero (l := queue) (by omega)]
    exact List.nil_subset _
  | succ bound ih =>
    match queue with
    | [] => exact List.nil_subset _
    | q :: queue =>
      rw [explore]
      exact List.cons_subset_cons _ (List.Subset.trans (List.subset_append_left _ _) (ih h.step))

/-- all that a visited name leads to has been seen or is visited -/
theorem Fits.closed (h : Fits next names bound seen queue) :
    ∀ x ∈ explore next bound seen queue, ∀ y ∈ next x,
      y ∈ seen ∨ y ∈ explore next bound seen queue := by
  induction bound generalizing seen queue with
  | zero => exact fun x hx => nomatch hx
  | succ bound ih =>
    match queue with
    | [] => exact fun x hx => nomatch hx
    | q :: queue =>
      -- what the first name of the queue leads to is seen, or waiting from now on
      have hfirst : ∀ y ∈ next q, y ∈ seen ∨ y ∈ explore next (bound + 1) seen (q :: queue) := by
        intro y hy
        by_cases hseen : y ∈ seen
        · exact .inl hseen
        · rw [explore]
          exact .inr (List.mem_cons_of_mem _
            (h.step.subset (List.mem_append_right _ (mem_discover.mpr ⟨hy, hseen⟩))))
      intro x hx y hy
      rw [explore] at hx
      rcases List.mem_cons.mp hx with rfl | hx
      · exact hfirst y hy
      · rcases ih h.step x hx y hy with hseen | hy
        · rcases mem_seen_discover.mp hseen with hseen | hy
          · exact .inl hseen
          · exact hfirst y hy
        · rw [explore]
          exact .inr (List.mem_cons_of_mem _ hy)

/-- a search that has room visits no more with more room -/
theorem Fits.explore_add (h : Fits next names bound seen queue) (more : Nat) :
    explore next (bound + more) seen queue = explore next bound seen queue := by
  induction bound generalizing seen queue with
  | zero =>
    have hroom := h.room
    rw [List.eq_nil_of_length_eq_zero (l := queue) (by omega)]
    cases more <;> rfl
  | succ bound ih =>
    match queue with
    | [] => rw [Nat.succ_add]; rfl
    | q :: queue => rw [Nat.succ_add, explore, explore, ih h.step]

/-! ## reaching -/

variable {start : String}

/-- the steps stay within some names, the start is one of them, and there is room for all -/
structure Within (next : String → List String) (names : List String) (bound : Nat)
    (start : String) : Prop where
  stays : ∀ x ∈ names, ∀ y ∈ next x, y ∈ names
  starts : start ∈ names
  room : names.length ≤ bound

theorem Within.fits (h : Within next names bound start) :
    Fits next names bound (Std.TreeSet.ofList [start]) [start] := by
  have hlt : unseen names (Std.TreeSet.insert ∅ start) < unseen names ∅ :=
    unseen_insert_lt h.starts Std.TreeSet.not_mem_emptyc
  have hle : unseen names ∅ ≤ names.length := List.countP_le_length
  have hroom := h.room
  refine ⟨h.stays, List.forall_mem_singleton.mpr h.starts, ?_⟩
  show unseen names (Std.TreeSet.insert ∅ start) + 1 ≤ bound
  omega

theorem Within.start_mem_reach (h : Within next names bound start) : start ∈ reach next bound start :=
  h.fits.subset List.mem_cons_self

/-- what a reached name leads to is reached -/
theorem Within.reach_closed (h : Within next names bound start) :
    ∀ x ∈ reach next bound start, ∀ y ∈ next x, y ∈ reach next bound start := by
  intro x hx y hy
  rcases h.fits.closed x hx y hy with hseen | hy
  · rw [Std.TreeSet.mem_ofList, List.contains_iff_mem, List.mem_singleton] at hseen
    exact hseen ▸ h.start_mem_reach
  · exact hy

theorem Within.reach_add (h : Within next names bound start) (more : Nat) :
    reach next (bound + more) start = reach next bound start := h.fits.explore_add more

/-- behind the start come the other names that are reached -/
theorem Within.mem_drop_reach (h : Within next names bound start) :
    x ∈ (reach next bound start).drop 1 ↔ x ≠ start ∧ x ∈ reach next bound start := by
  match bound with
  | 0 => exact absurd h.room (by simpa using List.ne_nil_of_mem h.starts)
  | bound + 1 =>
    rw [reach, explore, List.drop_succ_cons, List.drop_zero, List.mem_cons]
    constructor
    · intro hx
      refine ⟨?_, .inr hx⟩
      rintro rfl
      have hstart : x ∈ Std.TreeSet.ofList [x] := by simp
      rcases mem_queue_or_unseen hx with hx | hx
      · exact (mem_discover.mp hx).2 hstart
      · exact hx (mem_seen_discover.mpr (.inl hstart))
    · rintro ⟨hne, hx⟩
      exact hx.resolve_left hne

end OntologyPrep.Graph
