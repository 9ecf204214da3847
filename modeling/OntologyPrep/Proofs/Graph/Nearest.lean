import Mathlib.Logic.Relation
import Mathlib.Tactic.Tauto
import OntologyPrep.Proofs.Graph.Breadth

/-!
# The nearest answer

A search for an answer visits names from a queue until one of them has it.  `Graph.Stops` is that loop
without a bound on its rounds: a derivation is a run that comes to its end.

* `Graph.Fits.stops_iff`    a search with enough room is such a run, and there is no other one;
* `Graph.Stops.nearest`     a run that starts from one name stops with the answer of a name that is
                            fewest steps away, or without one if no name that can be reached has any.

`Graph.Layered` is what a round keeps: the queue holds names that are some number of steps away, and
behind them names that are one step further away, while all nearer names have been passed.
-/

namespace OntologyPrep.Graph

/-- a chain of that many steps leads from a thing to another one -/
inductive Steps {α : Type} (step : α → α → Prop) (a : α) : Nat → α → Prop where
  | refl : Steps step a 0 a
  | tail {n : Nat} {b c : α} : Steps step a n b → step b c → Steps step a (n + 1) c

theorem exists_steps_iff {α : Type} {step : α → α → Prop} {a b : α} :
    (∃ n, Steps step a n b) ↔ Relation.ReflTransGen step a b := by
  constructor
  · intro h
    obtain ⟨n, h⟩ := h
    induction h with
    | refl => exact .refl
    | tail _ hs ih => exact ih.tail hs
  · intro h
    induction h with
    | refl => exact ⟨0, .refl⟩
    | tail _ hs ih =>
      obtain ⟨n, hn⟩ := ih
      exact ⟨n + 1, hn.tail hs⟩

/-- a name leads to another one -/
def Leads (next : String → List String) (x y : String) : Prop := y ∈ next x

variable {β : Type} {next : String → List String} {answer? : String → Option β}

/-- the rounds from a queue of seen names come to an end, with or without an answer -/
inductive Stops (next : String → List String) (answer? : String → Option β) :
    Std.TreeSet String → List String → Option β → Prop where
  | exhausted (seen : Std.TreeSet String) : Stops next answer? seen [] none
  | found {seen : Std.TreeSet String} {x : String} {queue : List String} {b : β} :
    answer? x = some b → Stops next answer? seen (x :: queue) (some b)
  | passed {seen : Std.TreeSet String} {x : String} {queue : List String} {r : Option β} :
    answer? x = none →
    Stops next answer? (discover seen (next x)).2 (queue ++ (discover seen (next x)).1) r →
    Stops next answer? seen (x :: queue) r

variable {seen : Std.TreeSet String} {queue names : List String} {bound : Nat} {r r' : Option β}

theorem Stops.unique (h : Stops next answer? seen queue r) (h' : Stops next answer? seen queue r') :
    r = r' := by
  induction h with
  | exhausted seen => cases h'; rfl
  | found hb =>
    cases h' with
    | found hb' => rw [← hb, hb']
    | passed hnone => rw [hb] at hnone; cases hnone
  | passed hnone _ ih =>
    cases h' with
    | found hb => rw [hb] at hnone; cases hnone
    | passed _ h' => exact ih h'

/-- the first answer among the names in the order of their visit is that of the rounds -/
theorem Fits.stops (h : Fits next names bound seen queue) :
    Stops next answer? seen queue ((explore next bound seen queue).findSome? answer?) := by
  induction bound generalizing seen queue with
  | zero =>
    have hroom := h.room
    have hqueue : queue = [] := List.eq_nil_of_length_eq_zero (by omega)
    rw [hqueue]
    exact .exhausted seen
  | succ bound ih =>
    match queue with
    | [] => exact .exhausted seen
    | x :: queue =>
      rw [explore, List.findSome?_cons]
      cases hx : answer? x with
      | some b => exact .found hx
      | none => exact .passed hx (ih h.step)

/-- with enough room the rounds stop, and with one answer only -/
theorem Fits.stops_iff (h : Fits next names bound seen queue) :
    Stops next answer? seen queue r ↔ r = (explore next bound seen queue).findSome? answer? := by
  constructor
  · intro hr
    exact hr.unique h.stops
  · intro hr
    rw [hr]
    exact h.stops

/-! ## layers -/

/-- the name has been passed, or waits in one of two layers -/
def Placed (done near far : List String) (x : String) : Prop := x ∈ done ∨ x ∈ near ∨ x ∈ far

/-- the names `near` are `level` steps away from the start and the names `far` one step more, the names
`done` have been passed, nothing that can be reached by fewer steps is still to come, and what passed
names lead to has been passed or is waiting -/
structure Layered (next : String → List String) (start : String) (level : Nat) (done : List String)
    (seen : Std.TreeSet String) (near far : List String) : Prop where
  near_steps : ∀ x ∈ near, Steps (Leads next) start level x
  far_steps : ∀ x ∈ far, Steps (Leads next) start (level + 1) x
  below : ∀ n < level, ∀ x, Steps (Leads next) start n x → x ∈ done
  reached : ∀ x, Steps (Leads next) start level x → x ∈ done ∨ x ∈ near
  closed : ∀ x ∈ done, ∀ y ∈ next x, Placed done near far y
  placed : ∀ x ∈ seen, Placed done near far x

variable {start x y : String} {level : Nat} {done near far new : List String}

theorem Placed.rotate (h : Placed done [] far y) : Placed done far [] y :=
  h.imp_right fun h => .inl (h.resolve_left List.not_mem_nil)

theorem Placed.pass (h : Placed done (x :: near) far y) : Placed (x :: done) near (far ++ new) y := by
  unfold Placed at h ⊢
  simp only [List.mem_cons, List.mem_append] at h ⊢
  tauto

/-- before the first round only the start is waiting -/
theorem layered_start (next : String → List String) (start : String) :
    Layered next start 0 [] (Std.TreeSet.ofList [start]) [start] [] where
  near_steps y hy := by
    rw [List.mem_singleton.mp hy]
    exact .refl
  far_steps y hy := absurd hy List.not_mem_nil
  below n hn := absurd hn (Nat.not_lt_zero n)
  reached y hy := by
    cases hy
    exact .inr List.mem_cons_self
  closed y hy := absurd hy List.not_mem_nil
  placed y hy := by
    rw [Std.TreeSet.mem_ofList, List.contains_iff_mem] at hy
    exact .inr (.inl hy)

/-- when no name of a layer is left, the next layer is the first one -/
theorem Layered.rotate (h : Layered next start level done seen [] far) :
    Layered next start (level + 1) done seen far [] where
  near_steps := h.far_steps
  far_steps y hy := absurd hy List.not_mem_nil
  below n hn y hy := by
    rcases Nat.lt_succ_iff_lt_or_eq.mp hn with hlt | rfl
    · exact h.below n hlt y hy
    · exact (h.reached y hy).resolve_right List.not_mem_nil
  reached y hy := by
    cases hy with
    | tail hx hs =>
      have hdone := (h.reached _ hx).resolve_right List.not_mem_nil
      exact (h.closed _ hdone y hs).imp_right fun hy => hy.resolve_left List.not_mem_nil
  closed y hy z hz := (h.closed y hy z hz).rotate
  placed y hy := (h.placed y hy).rotate

/-- the name whose turn it is stands in the first layer that has names left -/
theorem Layered.exists_front (h : Layered next start level done seen near far)
    (hqueue : x :: queue = near ++ far) : ∃ level near far,
      Layered next start level done seen (x :: near) far ∧ queue = near ++ far := by
  cases near with
  | nil =>
    rw [List.nil_append] at hqueue
    subst hqueue
    exact ⟨level + 1, queue, [], h.rotate, (List.append_nil queue).symm⟩
  | cons y near =>
    rw [List.cons_append] at hqueue
    obtain ⟨rfl, rfl⟩ := List.cons.inj hqueue
    exact ⟨level, near, far, h, rfl⟩

/-- a round puts what its name leads to, and has not been seen, into the layer behind -/
theorem Layered.pass (h : Layered next start level done seen (x :: near) far) :
    Layered next start level (x :: done) (discover seen (next x)).2 near
      (far ++ (discover seen (next x)).1) where
  near_steps y hy := h.near_steps y (List.mem_cons_of_mem x hy)
  far_steps y hy := by
    rcases List.mem_append.mp hy with hy | hy
    · exact h.far_steps y hy
    · exact (h.near_steps x List.mem_cons_self).tail (mem_discover.mp hy).1
  below n hn y hy := List.mem_cons_of_mem x (h.below n hn y hy)
  reached y hy := by
    rcases h.reached y hy with hdone | hnear
    · exact .inl (List.mem_cons_of_mem x hdone)
    · rcases List.mem_cons.mp hnear with rfl | hnear
      · exact .inl List.mem_cons_self
      · exact .inr hnear
  closed y hy z hz := by
    rcases List.mem_cons.mp hy with rfl | hy
    · by_cases hseen : z ∈ seen
      · exact (h.placed z hseen).pass
      · exact .inr (.inr (List.mem_append_right far (mem_discover.mpr ⟨hz, hseen⟩)))
    · exact (h.closed y hy z hz).pass
  placed y hy := by
    by_cases hseen : y ∈ seen
    · exact (h.placed y hseen).pass
    · have hnew := (mem_seen_discover.mp hy).resolve_left hseen
      exact .inr (.inr (List.mem_append_right far (mem_discover.mpr ⟨hnew, hseen⟩)))

/-- when nothing is waiting, all that can be reached has been passed -/
theorem Layered.mem_done (h : Layered next start level done seen [] []) {n : Nat}
    (hx : Steps (Leads next) start n x) : x ∈ done := by
  induction hx with
  | refl =>
    rcases Nat.eq_zero_or_pos level with rfl | hpos
    · exact (h.reached start .refl).resolve_right List.not_mem_nil
    · exact h.below 0 hpos start .refl
  | tail _ hs ih => exact (h.closed _ ih _ hs).resolve_right (by simp)

/-- the answer of a name that is fewest steps away; none if no name that can be reached has one -/
def Nearest (step : String → String → Prop) (answer? : String → Option β) (start : String) :
    Option β → Prop
  | none => ∀ n x, Steps step start n x → answer? x = none
  | some b => ∃ n x, Steps step start n x ∧ answer? x = some b ∧
      ∀ m y c, Steps step start m y → answer? y = some c → n ≤ m

/-- there is an answer exactly if some name that can be reached has one -/
theorem Nearest.exists_iff {step : String → String → Prop} (h : Nearest step answer? start r) :
    (∃ b, r = some b) ↔ ∃ x b, Relation.ReflTransGen step start x ∧ answer? x = some b := by
  constructor
  · rintro ⟨b, rfl⟩
    obtain ⟨n, x, hx, hb, -⟩ := h
    exact ⟨x, b, exists_steps_iff.mp ⟨n, hx⟩, hb⟩
  · rintro ⟨x, b, hx, hb⟩
    cases r with
    | some c => exact ⟨c, rfl⟩
    | none =>
      obtain ⟨n, hx⟩ := exists_steps_iff.mpr hx
      rw [h n x hx] at hb
      cases hb

theorem Stops.nearest_of_layered (h : Stops next answer? seen queue r)
    (hl : Layered next start level done seen near far) (hqueue : queue = near ++ far)
    (hdone : ∀ x ∈ done, answer? x = none) : Nearest (Leads next) answer? start r := by
  induction h generalizing level done near far with
  | exhausted seen =>
    obtain ⟨rfl, rfl⟩ := List.append_eq_nil_iff.mp hqueue.symm
    intro n x hx
    exact hdone x (hl.mem_done hx)
  | @found seen x queue b hb =>
    obtain ⟨level, near, far, hl, -⟩ := hl.exists_front hqueue
    refine ⟨level, x, hl.near_steps x List.mem_cons_self, hb, ?_⟩
    intro m y c hy hc
    refine Nat.le_of_not_lt fun hlt => ?_
    rw [hdone y (hl.below m hlt y hy)] at hc
    cases hc
  | @passed seen x queue r hnone _ ih =>
    obtain ⟨level, near, far, hl, rfl⟩ := hl.exists_front hqueue
    refine ih hl.pass (List.append_assoc near far _) ?_
    intro y hy
    rcases List.mem_cons.mp hy with rfl | hy
    · exact hnone
    · exact hdone y hy

/-- a run from one name stops with the answer of a nearest name -/
theorem Stops.nearest (h : Stops next answer? (Std.TreeSet.ofList [start]) [start] r) :
    Nearest (Leads next) answer? start r :=
  h.nearest_of_layered (layered_start next start) rfl (fun _ hx => absurd hx List.not_mem_nil)

end OntologyPrep.Graph
