import OntologyPrep.Predicate.Binding
import OntologyPrep.Predicate.Simplification
import OntologyPrep.Preparation.Candidates
import OntologyPrep.Proofs.Term.Variables

/-!
# The weight of a term under replacement

`Term.expansionWeight` counts variables.  It adds up over the elements of a list, it is 0 for a term
without variables, and giving a variable such a term for a value lowers it:

* `Term.weight_substitute_lt`   where the variable is free;
* `Term.weight_assign`          where it is bound too; a variable that is neither changes nothing;
* `Term.weight_simplify_le`     leaving out what is known never raises it.
-/

namespace OntologyPrep

/-- sums of bounded parts, one of which stays below its bound, stay below the sum of the bounds -/
theorem total_map_lt {α : Type} {f g : α → Nat} {xs : List α} (hle : ∀ x ∈ xs, f x ≤ g x)
    (hlt : ∃ x ∈ xs, f x < g x) : total (xs.map f) < total (xs.map g) := by
  induction xs with
  | nil =>
    obtain ⟨x, hx, _⟩ := hlt
    cases hx
  | cons y ys ih =>
    have hy := hle y (by simp)
    have hrest : total (ys.map f) ≤ total (ys.map g) := by
      clear ih hlt
      induction ys with
      | nil => exact Nat.le_refl _
      | cons z zs ihz =>
        have hz := hle z (by simp)
        have := ihz fun x hx => hle x (by
          rcases List.mem_cons.mp hx with rfl | hx
          · exact List.mem_cons_self
          · exact List.mem_cons_of_mem _ (List.mem_cons_of_mem _ hx))
        simp only [List.map_cons, total_cons]
        omega
    simp only [List.map_cons, total_cons]
    obtain ⟨x, hx, hxlt⟩ := hlt
    rcases List.mem_cons.mp hx with rfl | hx
    · omega
    · have := ih (fun z hz => hle z (by simp [hz])) ⟨x, hx, hxlt⟩
      omega

namespace Name

/-- what an atom adds to the weight of a term -/
def expansionWeight (a : String) : Nat :=
  (if isPlainVariable a then 1 else 0) + Term.rowWeight * (if isRowVariable a then 1 else 0)

theorem expansionWeight_pos {a : String} (h : isVariable a = true) : 0 < expansionWeight a := by
  rw [isVariable, Bool.or_eq_true] at h
  unfold expansionWeight
  rcases h with h | h
  · rw [if_pos h]
    omega
  · rw [if_pos h, Term.rowWeight, RowRange.limit]
    omega

end Name

namespace Term

/-! ## sums -/

theorem expansionWeight_atom (a : String) :
    (atom a).expansionWeight = Name.expansionWeight a := by
  simp [expansionWeight, Name.expansionWeight, List.countP_cons]

theorem expansionWeight_list (xs : List Term) :
    (list xs).expansionWeight = total (xs.map expansionWeight) := by
  induction xs with
  | nil => simp [expansionWeight]
  | cons x xs ih =>
    rw [List.map_cons, total_cons, ← ih]
    simp only [expansionWeight, atoms_list, List.flatMap_cons, List.countP_append]
    rw [Nat.mul_add]
    omega

theorem expansionWeight_eq_zero {t : Term} (h : t.containsVariable = false) :
    t.expansionWeight = 0 := by
  rw [containsVariable, List.any_eq_false] at h
  have hp : t.atoms.countP Name.isPlainVariable = 0 := List.countP_eq_zero.mpr fun a ha hv =>
    h a ha (by simp [Name.isVariable, hv])
  have hr : t.atoms.countP Name.isRowVariable = 0 := List.countP_eq_zero.mpr fun a ha hv =>
    h a ha (by simp [Name.isVariable, hv])
  simp [expansionWeight, hp, hr]

theorem expansionWeight_pos {t : Term} (h : t.containsVariable = true) : 0 < t.expansionWeight := by
  obtain ⟨a, ha, hv⟩ := List.any_eq_true.mp h
  rw [Name.isVariable, Bool.or_eq_true] at hv
  unfold expansionWeight rowWeight RowRange.limit
  rcases hv with hv | hv
  · have := List.countP_pos_iff.mpr ⟨a, ha, hv⟩
    omega
  · have := List.countP_pos_iff.mpr ⟨a, ha, hv⟩
    omega

theorem expansionWeight_le_of_mem {xs : List Term} {x : Term} (h : x ∈ xs) :
    x.expansionWeight ≤ (list xs).expansionWeight := by
  rw [expansionWeight_list]
  induction xs with
  | nil => cases h
  | cons y ys ih =>
    rw [List.map_cons, total_cons]
    rcases List.mem_cons.mp h with rfl | h
    · omega
    · have := ih h
      omega

/-- a list weighs no more when its elements are changed into ones that weigh no more -/
theorem expansionWeight_map_le {xs : List Term} {f : Term → Term}
    (h : ∀ x ∈ xs, (f x).expansionWeight ≤ x.expansionWeight) :
    (list (xs.map f)).expansionWeight ≤ (list xs).expansionWeight := by
  rw [expansionWeight_list, expansionWeight_list, List.map_map]
  exact sum_map_le_sum_map h

/-- and less if one of them weighs less -/
theorem expansionWeight_map_lt {xs : List Term} {f : Term → Term}
    (hle : ∀ x ∈ xs, (f x).expansionWeight ≤ x.expansionWeight)
    (hlt : ∃ x ∈ xs, (f x).expansionWeight < x.expansionWeight) :
    (list (xs.map f)).expansionWeight < (list xs).expansionWeight := by
  rw [expansionWeight_list, expansionWeight_list, List.map_map]
  exact total_map_lt hle hlt

theorem expansionWeight_toTerm (b : Binder) :
    b.toTerm.expansionWeight =
      Name.expansionWeight b.quantifier.name + (b.entries.expansionWeight + b.body.expansionWeight) := by
  rw [Binder.toTerm, expansionWeight_list]
  simp [expansionWeight_atom]

theorem expansionWeight_quantified (head : String) (names : List String) (body : Term) :
    (quantified head names body).expansionWeight = Name.expansionWeight head +
      (total (names.map Name.expansionWeight) + body.expansionWeight) := by
  rw [quantified, app, expansionWeight_list]
  simp only [List.map_cons, List.map_nil, total_cons, total_nil, expansionWeight_atom,
    expansionWeight_list, List.map_map, Nat.add_zero]
  congr 3
  exact List.map_congr_left fun a _ => expansionWeight_atom a

/-! ## free variables -/

theorem weight_substitute_le (t : Term) (name : String) {value : Term}
    (hv : value.containsVariable = false) :
    (t.substitute name value).expansionWeight ≤ t.expansionWeight := by
  match t with
  | .atom a =>
    rw [substitute_atom]
    split
    · rw [expansionWeight_eq_zero hv]
      exact Nat.zero_le _
    · exact Nat.le_refl _
  | .list xs =>
    by_cases hb : name ∈ (list xs).boundNames
    · exact Nat.le_of_eq (by rw [substitute_of_bound value hb])
    · rw [substitute_list value hb]
      exact expansionWeight_map_le fun x _ => weight_substitute_le x name hv

/-- replacing a free variable by a term without variables makes the term lighter -/
theorem weight_substitute_lt {t : Term} {name : String} {value : Term}
    (hv : value.containsVariable = false) (h : name ∈ t.freeVariables) :
    (t.substitute name value).expansionWeight < t.expansionWeight := by
  induction t using binderInduction with
  | atom a =>
    obtain ⟨hvar, rfl⟩ := mem_freeVariables_atom.mp h
    rw [substitute_atom, if_pos rfl, expansionWeight_eq_zero hv, expansionWeight_atom]
    exact Name.expansionWeight_pos hvar
  | binder b ih =>
    obtain ⟨hbody, hn⟩ := mem_freeVariables_binder.mp h
    rw [← boundNames_binder] at hn
    rw [Binder.toTerm] at hn ⊢
    rw [substitute_list value hn]
    exact expansionWeight_map_lt (fun x _ => weight_substitute_le x name hv)
      ⟨b.body, by simp, ih hbody⟩
  | list xs hb ih =>
    have hn : name ∉ (list xs).boundNames := by simp [boundNames_of_binder?_eq_none hb]
    obtain ⟨x, hx, hm⟩ := (mem_freeVariables_list hb).mp h
    rw [substitute_list value hn]
    exact expansionWeight_map_lt (fun x _ => weight_substitute_le x name hv) ⟨x, hx, ih x hx hm⟩

/-! ## bound variables -/

theorem weight_names_le (b : Binder) :
    total (b.names.map Name.expansionWeight) ≤ b.entries.expansionWeight := by
  unfold Binder.names
  cases b.entries with
  | atom a => simp [expansionWeight_atom]
  | list xs =>
    simp only
    rw [expansionWeight_list]
    induction xs with
    | nil => simp
    | cons x xs ih =>
      rw [List.map_cons, total_cons]
      cases x with
      | atom a =>
        rw [List.filterMap_cons_some (by rfl : (atom a).name? = some a), List.map_cons, total_cons,
          expansionWeight_atom]
        omega
      | list ys =>
        rw [List.filterMap_cons_none (by rfl : (list ys).name? = none)]
        omega

theorem weight_filter_lt {names : List String} {name : String}
    (hvar : Name.isVariable name = true) (h : name ∈ names) :
    total ((names.filter (· ≠ name)).map Name.expansionWeight) <
      total (names.map Name.expansionWeight) := by
  have hle : ∀ ns : List String, total ((ns.filter (· ≠ name)).map Name.expansionWeight) ≤
      total (ns.map Name.expansionWeight) := by
    intro ns
    induction ns with
    | nil => simp
    | cons n ns ih =>
      by_cases hn : n = name
      · rw [List.filter_cons_of_neg (by simpa using hn), List.map_cons, total_cons]
        omega
      · rw [List.filter_cons_of_pos (by simpa using hn), List.map_cons, List.map_cons, total_cons,
          total_cons]
        omega
  induction names with
  | nil => cases h
  | cons n ns ih =>
    by_cases hn : n = name
    · subst hn
      have hpos := Name.expansionWeight_pos hvar
      have := hle ns
      rw [List.filter_cons_of_neg (by simp), List.map_cons, total_cons]
      omega
    · have hmem : name ∈ ns := (List.mem_cons.mp h).resolve_left fun e => hn e.symm
      have := ih hmem
      rw [List.filter_cons_of_pos (by simpa using hn), List.map_cons, List.map_cons, total_cons,
        total_cons]
      omega

/-- a quantified formula without one of its names is lighter -/
theorem weight_binderAssign_lt {b : Binder} {name : String} {value : Term}
    (hv : value.containsVariable = false) (hvar : Name.isVariable name = true)
    (h : name ∈ b.names) : (b.assign name value).expansionWeight < b.toTerm.expansionWeight := by
  have hbody := weight_substitute_le b.body name hv
  have hnames := weight_names_le b
  have hlt := weight_filter_lt hvar h
  rw [expansionWeight_toTerm]
  simp only [Binder.assign]
  split
  · omega
  · next names hne =>
    rw [expansionWeight_quantified]
    omega

mutual

/-- the value of a bound variable makes the term lighter -/
theorem weight_assignBound?_lt {name : String} {value : Term}
    (hv : value.containsVariable = false) (hvar : Name.isVariable name = true) :
    ∀ (t : Term) {t' : Term}, assignBound? name value t = some t' →
      t'.expansionWeight < t.expansionWeight
  | .atom a, _, h => by simp [assignBound?] at h
  | .list items, t', h => by
    rw [assignBound?] at h
    split at h
    · next b hb =>
      cases h
      obtain ⟨hb, hmem⟩ := Option.filter_eq_some_iff.mp hb
      rw [binder?_eq_some_iff.mp hb]
      exact weight_binderAssign_lt hv hvar (by simpa using hmem)
    · obtain ⟨ys, hys, rfl⟩ := Option.map_eq_some_iff.mp h
      exact weight_assignBoundIn?_lt hv hvar items hys

/-- and so for the terms of a list -/
theorem weight_assignBoundIn?_lt {name : String} {value : Term}
    (hv : value.containsVariable = false) (hvar : Name.isVariable name = true) :
    ∀ (xs : List Term) {ys : List Term}, assignBoundIn? name value xs = some ys →
      (list ys).expansionWeight < (list xs).expansionWeight
  | [], _, h => by simp [assignBoundIn?] at h
  | x :: xs, ys, h => by
    rw [assignBoundIn?] at h
    split at h
    · next x' hx =>
      cases h
      have := weight_assignBound?_lt hv hvar x hx
      simp only [expansionWeight_list, List.map_cons, total_cons]
      omega
    · obtain ⟨zs, hzs, rfl⟩ := Option.map_eq_some_iff.mp h
      have := weight_assignBoundIn?_lt hv hvar xs hzs
      simp only [expansionWeight_list, List.map_cons, total_cons] at this ⊢
      omega

end

/-- giving a variable its value makes the term lighter, or changes nothing because the variable is
neither free nor bound -/
theorem weight_assign {t : Term} {name : String} {value : Term}
    (hv : value.containsVariable = false) (hvar : Name.isVariable name = true) :
    (t.assign name value).expansionWeight < t.expansionWeight ∨
      t.assign name value = t ∧ name ∉ t.freeVariables ∧ assignBound? name value t = none := by
  by_cases hf : name ∈ t.freeVariables
  · rw [assign_of_mem value hf]
    exact .inl (weight_substitute_lt hv hf)
  · rw [assign_of_not_mem value hf]
    cases hb : assignBound? name value t with
    | none => exact .inr ⟨rfl, hf, rfl⟩
    | some t' => exact .inl (weight_assignBound?_lt hv hvar t hb)

/-! ## simplification -/

theorem expansionWeight_app (head : String) (args : List Term) :
    (app head args).expansionWeight =
      Name.expansionWeight head + total (args.map expansionWeight) := by
  rw [app, expansionWeight_list, List.map_cons, total_cons, expansionWeight_atom]

theorem weight_conjoin_le (ts : List Term) :
    (conjoin ts).expansionWeight ≤ total (ts.map expansionWeight) := by
  match ts with
  | [] =>
    have htrue : Name.expansionWeight trueName = 0 := by decide
    rw [conjoin, verum, expansionWeight_atom, htrue]
    exact Nat.zero_le _
  | [t] => exact Nat.le_of_eq (by simp [conjoin])
  | s :: t :: ts =>
    have hand : Name.expansionWeight Operator.conj.name = 0 := by decide
    rw [conjoin]
    · rw [conj, apply, expansionWeight_app, hand]
      omega
    · simp
    · simp

theorem weight_dropTrueAntecedent_le (t : Term) :
    t.dropTrueAntecedent.expansionWeight ≤ t.expansionWeight := by
  unfold dropTrueAntecedent
  split
  · exact expansionWeight_le_of_mem (by simp)
  · exact Nat.le_refl _

/-- leaving some terms out and making the others no heavier makes no list heavier -/
theorem weight_filterMap_le {xs : List Term} {f : Term → Option Term}
    (h : ∀ x ∈ xs, ∀ y, f x = some y → y.expansionWeight ≤ x.expansionWeight) :
    total ((xs.filterMap f).map expansionWeight) ≤ total (xs.map expansionWeight) := by
  induction xs with
  | nil => simp
  | cons x xs ih =>
    have hxs := ih fun y hy => h y (by simp [hy])
    rw [List.map_cons, total_cons]
    cases hx : f x with
    | none =>
      rw [List.filterMap_cons_none hx]
      omega
    | some y =>
      have := h x (by simp) y hx
      rw [List.filterMap_cons_some hx, List.map_cons, total_cons]
      omega

theorem weight_simplifyBy_le (known : List Term) (t : Term) :
    (t.simplifyBy known).expansionWeight ≤ t.expansionWeight := by
  induction t using simplifyBy.induct known with
  | case1 args ih =>
    have hargs := @weight_filterMap_le args
      (fun a => if a ∈ known then none else some (a.simplifyBy known)) fun x hx y hy => by
        split at hy
        · cases hy
        · cases hy
          exact ih x hx
    have hconjoin := weight_conjoin_le
      (args.filterMap fun a => if a ∈ known then none else some (a.simplifyBy known))
    rw [simplifyBy, show (list (.atom "and" :: args)) = app "and" args from rfl,
      expansionWeight_app]
    omega
  | case2 antecedent consequent hknown ih =>
    rw [simplifyBy, if_pos hknown]
    exact Nat.le_trans ih (expansionWeight_le_of_mem (by simp))
  | case3 antecedent consequent hknown ih1 ih2 =>
    rw [simplifyBy, if_neg hknown]
    refine Nat.le_trans (weight_dropTrueAntecedent_le _) ?_
    simp only [expansionWeight_list, List.map_cons, total_cons]
    omega
  | case4 h args hand himp ht ih =>
    rw [simplifyBy]
    · rw [ht, ← app, ← app, expansionWeight_app, expansionWeight_app, List.map_map]
      have := sum_map_le_sum_map ih
      simp only [Function.comp_def]
      omega
    · exact hand
    · exact himp
  | case5 h args hand himp ht =>
    refine Nat.le_of_eq (congrArg expansionWeight ?_)
    rw [simplifyBy, ht] <;> assumption
  | case6 t h1 h2 h3 =>
    refine Nat.le_of_eq (congrArg expansionWeight ?_)
    rw [simplifyBy]
    · exact h1
    · exact h2
    · exact h3

/-- leaving out what is known makes no term heavier -/
theorem weight_simplify_le (t : Term) (known : List Term) :
    (t.simplify known).expansionWeight ≤ t.expansionWeight := by
  unfold simplify
  split
  · exact Nat.le_refl _
  · exact weight_simplifyBy_le known t

end Term

end OntologyPrep
