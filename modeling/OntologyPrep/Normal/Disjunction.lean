import OntologyPrep.Term.Basic
import OntologyPrep.Weight

/-!
# Disjunctions moved inwards

* `Term.flatten`      a conjunction inside a conjunction, or a disjunction inside a disjunction, gives
                      its parts to the outer one, and one with a single part becomes that part;
* `Term.distribute`   a disjunction with a conjunction among its parts becomes a conjunction of
                      disjunctions; the first such part is taken;
* `Term.disjunctionsIn`   the two in turn until nothing changes.

The repetition ends on every term: distributing lowers `Term.clauseWeight`, in which a disjunction
multiplies, and flattening lowers the number of nodes and never raises that weight
(`Term.weight_clauseRound`).  The result is a fixed point (`Term.clauseRound_disjunctionsIn`).
-/

namespace OntologyPrep.Term

/-- the parts of an application of the operator, or the term as its only part -/
def parts (op : String) : Term → List Term
  | .list (.atom h :: args) => if h = op then args else [.list (.atom h :: args)]
  | t => [t]

/-- the application of an operator, or its argument if there is only one -/
def collapse (op : String) : List Term → Term
  | [t] => t
  | ts => .app op ts

/-- nested conjunctions and disjunctions merged -/
def flatten : Term → Term
  | .atom a => .atom a
  | .list (.atom "and" :: args) => collapse "and" ((args.map flatten).flatMap (parts "and"))
  | .list (.atom "or" :: args) => collapse "or" ((args.map flatten).flatMap (parts "or"))
  | .list items => .list (items.map flatten)

/-- the conjuncts of a conjunction -/
def conjuncts? : Term → Option (List Term)
  | .list (.atom "and" :: args) => some args
  | _ => none

/-- a disjunction over its first part that is a conjunction, given the parts before -/
def distributeFrom (before : List Term) : List Term → Option Term
  | [] => none
  | t :: after =>
    match t.conjuncts? with
    | some cs => some (.conj (cs.map fun c => .disj (before ++ c :: after)))
    | none => distributeFrom (before ++ [t]) after

/-- a disjunction over its first part that is a conjunction, if there is one -/
def distributeParts (args : List Term) : Term := (distributeFrom [] args).getD (.disj args)

/-- every disjunction outside of atomic formulas over its first part that is a conjunction -/
def distribute : Term → Term
  | .atom a => .atom a
  | .list (.atom "and" :: args) => .conj (args.map distribute)
  | .list (.atom "or" :: args) => distributeParts (args.map distribute)
  | .list items => .list items

/-- one round: distribute, then flatten -/
def clauseRound (t : Term) : Term := t.distribute.flatten

/-! ## sums and products -/

/-- sums of bounded parts are bounded, and reach the bound only if every part does -/
theorem sum_map_le {xs : List Term} {f : Term → Term} {w : Term → Nat}
    (h : ∀ x ∈ xs, w (f x) ≤ w x ∧ (w (f x) = w x → f x = x)) :
    total ((xs.map f).map w) ≤ total (xs.map w) ∧
      (total ((xs.map f).map w) = total (xs.map w) → xs.map f = xs) := by
  induction xs with
  | nil => simp
  | cons x xs ih =>
    obtain ⟨hx, hx'⟩ := h x (by simp)
    obtain ⟨hs, hs'⟩ := ih fun y hy => h y (by simp [hy])
    simp only [List.map_cons, total_cons]
    exact ⟨by omega, fun he => by rw [hx' (by omega), hs' (by omega)]⟩

/-- the product of the weights of some terms -/
def product (w : Term → Nat) (xs : List Term) : Nat := (xs.map w).foldr (· * ·) 1

@[simp] theorem product_nil (w : Term → Nat) : product w [] = 1 := rfl

@[simp] theorem product_cons (w : Term → Nat) (x : Term) (xs : List Term) :
    product w (x :: xs) = w x * product w xs := rfl

theorem product_append (w : Term → Nat) (xs ys : List Term) :
    product w (xs ++ ys) = product w xs * product w ys := by
  induction xs with
  | nil => simp
  | cons x xs ih => rw [List.cons_append, product_cons, product_cons, ih, Nat.mul_assoc]

theorem one_le_product {w : Term → Nat} {xs : List Term} (hw : ∀ x ∈ xs, 1 ≤ w x) :
    1 ≤ product w xs := by
  induction xs with
  | nil => exact Nat.le_refl 1
  | cons x xs ih =>
    rw [product_cons]
    exact Nat.mul_le_mul (hw x (by simp)) (ih fun y hy => hw y (by simp [hy]))

/-- products of bounded parts are bounded, and reach the bound only if every part does -/
theorem product_map_le {xs : List Term} {f : Term → Term} {w : Term → Nat} (hw : ∀ t, 1 ≤ w t)
    (h : ∀ x ∈ xs, w (f x) ≤ w x ∧ (w (f x) = w x → f x = x)) :
    product w (xs.map f) ≤ product w xs ∧
      (product w (xs.map f) = product w xs → xs.map f = xs) := by
  induction xs with
  | nil => simp
  | cons x xs ih =>
    obtain ⟨hx, hx'⟩ := h x (by simp)
    obtain ⟨hs, hs'⟩ := ih fun y hy => h y (by simp [hy])
    have hpos : 1 ≤ product w xs := one_le_product fun y _ => hw y
    have hle : w (f x) * product w (xs.map f) ≤ w x * product w (xs.map f) :=
      Nat.mul_le_mul_right _ hx
    have hle' : w x * product w (xs.map f) ≤ w x * product w xs := Nat.mul_le_mul_left _ hs
    simp only [List.map_cons, product_cons]
    refine ⟨Nat.le_trans hle hle', fun he => ?_⟩
    have hwx := hw x
    have h1 : product w (xs.map f) = product w xs :=
      Nat.eq_of_mul_eq_mul_left (show 0 < w x by omega) (by omega)
    have h2 : w (f x) = w x := by
      rw [h1] at he
      exact Nat.eq_of_mul_eq_mul_right (by omega) he
    rw [hx' h2, hs' h1]

/-- sums of bounded parts are bounded -/
theorem sum_map_le_sum_map {xs : List Term} {v w : Term → Nat} (h : ∀ x ∈ xs, v x ≤ w x) :
    total (xs.map v) ≤ total (xs.map w) := by
  induction xs with
  | nil => simp
  | cons x xs ih =>
    have hx := h x (by simp)
    have hs := ih fun y hy => h y (by simp [hy])
    simp only [List.map_cons, total_cons]
    omega

/-- products of bounded parts are bounded -/
theorem product_map_le_product {xs : List Term} {f : Term → Term} {w : Term → Nat}
    (h : ∀ x ∈ xs, w (f x) ≤ w x) : product w (xs.map f) ≤ product w xs := by
  induction xs with
  | nil => simp
  | cons x xs ih =>
    rw [List.map_cons, product_cons, product_cons]
    exact Nat.mul_le_mul (h x (by simp)) (ih fun y hy => h y (by simp [hy]))

/-! ## the two measures -/

/-- the number of nodes -/
def nodes : Term → Nat
  | .atom _ => 1
  | .list items => 1 + total (items.map nodes)

theorem nodes_list (xs : List Term) : (list xs).nodes = 1 + total (xs.map nodes) := by rw [nodes]

/-- a weight for terms in which a conjunction adds and a disjunction multiplies: a list that starts
with a list weighs more than anything it could turn into once its head has become an atom -/
def clauseWeight : Term → Nat
  | .atom _ => 1
  | .list (.atom "and" :: args) => 1 + total (args.map clauseWeight)
  | .list (.atom "or" :: args) => 2 * (args.map clauseWeight).foldr (· * ·) 1
  | .list (.list _ :: rest) =>
    1 + total (rest.map clauseWeight) + 2 * (rest.map clauseWeight).foldr (· * ·) 1
  | .list _ => 1

theorem clauseWeight_conj (xs : List Term) :
    (conj xs).clauseWeight = 1 + total (xs.map clauseWeight) := by
  rw [conj, apply, app]
  show (list (.atom "and" :: xs)).clauseWeight = _
  rw [clauseWeight]

theorem clauseWeight_disj (xs : List Term) :
    (disj xs).clauseWeight = 2 * product clauseWeight xs := by
  rw [disj, apply, app]
  show (list (.atom "or" :: xs)).clauseWeight = _
  rw [clauseWeight, product]

theorem clauseWeight_list_cons_list (ys rest : List Term) :
    (list (.list ys :: rest)).clauseWeight =
      1 + total (rest.map clauseWeight) + 2 * product clauseWeight rest := by
  rw [clauseWeight, product]

theorem one_le_clauseWeight (t : Term) : 1 ≤ t.clauseWeight := by
  induction t using clauseWeight.induct with
  | case1 a => exact Nat.le_of_eq (by rw [clauseWeight])
  | case2 args _ => rw [clauseWeight]; omega
  | case3 args ih =>
    have := one_le_product ih
    rw [clauseWeight, ← product]
    omega
  | case4 ys rest _ => rw [clauseWeight]; omega
  | case5 items h1 h2 h3 =>
    refine Nat.le_of_eq ?_
    rw [clauseWeight]
    · exact h1
    · exact h2
    · exact h3

theorem clauseWeight_of_ne {a : String} (rest : List Term) (ha : a ≠ "and") (ho : a ≠ "or") :
    (list (.atom a :: rest)).clauseWeight = 1 := by
  rw [clauseWeight]
  · simpa using ha
  · simpa using ho
  · simp

/-- no list weighs more than one that starts with a list -/
theorem clauseWeight_list_cons_le (x : Term) (rest : List Term) :
    (list (x :: rest)).clauseWeight ≤
      1 + total (rest.map clauseWeight) + 2 * product clauseWeight rest := by
  unfold clauseWeight
  split
  · omega
  · next h => injection h with h; injection h with _ h; subst h; omega
  · next h => injection h with h; injection h with _ h; subst h; simp only [product]; omega
  · next h =>
    injection h with h
    injection h with _ h
    subst h
    exact Nat.le_of_eq (by rw [product])
  · omega

/-! ## flattening -/

theorem parts_of_ne (op : String) {t : Term} (h : ∀ args, t = .app op args → False) :
    t.parts op = [t] := by
  unfold parts
  split
  · next a args =>
    rw [if_neg]
    rintro rfl
    exact h args rfl
  · rfl

theorem parts_app (op : String) (args : List Term) : (app op args).parts op = args := by
  simp [app, parts]

/-- merged parts have no more nodes, and as many only if nothing has been merged -/
theorem nodes_flatMap_parts (op : String) (xs : List Term) :
    total ((xs.flatMap (parts op)).map nodes) ≤ total (xs.map nodes) ∧
      (total ((xs.flatMap (parts op)).map nodes) = total (xs.map nodes) →
        xs.flatMap (parts op) = xs) := by
  induction xs with
  | nil => simp
  | cons x xs ih =>
    obtain ⟨hle, heq⟩ := ih
    rw [List.flatMap_cons, List.map_append, total_append, List.map_cons, total_cons]
    by_cases hx : ∃ args, x = .app op args
    · obtain ⟨args, rfl⟩ := hx
      rw [parts_app, show (app op args).nodes = _ from nodes_list _, List.map_cons,
        total_cons]
      exact ⟨by omega, fun h => by omega⟩
    · rw [parts_of_ne op fun args h => hx ⟨args, h⟩]
      simp only [List.map_cons, List.map_nil, total_cons, total_nil]
      exact ⟨by omega, fun h => by rw [heq (by omega)]; rfl⟩

theorem sum_weight_flatMap_parts (xs : List Term) :
    total ((xs.flatMap (parts "and")).map clauseWeight) ≤ total (xs.map clauseWeight) := by
  induction xs with
  | nil => simp
  | cons x xs ih =>
    rw [List.flatMap_cons, List.map_append, total_append, List.map_cons, total_cons]
    by_cases hx : ∃ args, x = .app "and" args
    · obtain ⟨args, rfl⟩ := hx
      rw [parts_app, show (app "and" args).clauseWeight = _ from clauseWeight_conj args]
      omega
    · rw [parts_of_ne "and" fun args h => hx ⟨args, h⟩]
      simp only [List.map_cons, List.map_nil, total_cons, total_nil]
      omega

theorem product_weight_flatMap_parts (xs : List Term) :
    product clauseWeight (xs.flatMap (parts "or")) ≤ product clauseWeight xs := by
  induction xs with
  | nil => simp
  | cons x xs ih =>
    rw [List.flatMap_cons, product_append, product_cons]
    by_cases hx : ∃ args, x = .app "or" args
    · obtain ⟨args, rfl⟩ := hx
      rw [parts_app, show (app "or" args).clauseWeight = _ from clauseWeight_disj args]
      exact Nat.mul_le_mul (by omega) ih
    · rw [parts_of_ne "or" fun args h => hx ⟨args, h⟩, product_cons, product_nil, Nat.mul_one]
      exact Nat.mul_le_mul_left _ ih

theorem clauseWeight_collapse_and (xs : List Term) :
    (collapse "and" xs).clauseWeight ≤ 1 + total (xs.map clauseWeight) := by
  unfold collapse
  split
  · simp only [List.map_cons, List.map_nil, total_cons, total_nil]
    omega
  · exact Nat.le_of_eq (clauseWeight_conj _)

theorem clauseWeight_collapse_or (xs : List Term) :
    (collapse "or" xs).clauseWeight ≤ 2 * product clauseWeight xs := by
  unfold collapse
  split
  · simp only [product_cons, product_nil]
    omega
  · exact Nat.le_of_eq (clauseWeight_disj _)

/-- an application put together again has no more nodes than its parts allow, and as many only if
it is the application of the parts -/
theorem nodes_collapse (op : String) (xs : List Term) :
    (collapse op xs).nodes ≤ 2 + total (xs.map nodes) ∧
      ((collapse op xs).nodes = 2 + total (xs.map nodes) → collapse op xs = .app op xs) := by
  unfold collapse
  split
  · simp only [List.map_cons, List.map_nil, total_cons, total_nil]
    exact ⟨by omega, fun h => by omega⟩
  · rw [app, nodes_list, List.map_cons, total_cons, nodes]
    exact ⟨by omega, fun _ => rfl⟩

/-- what is nested in a junction put in its place -/
theorem nodes_collapse_flatten (op : String) {args : List Term}
    (h : ∀ x ∈ args, x.flatten.nodes ≤ x.nodes ∧ (x.flatten.nodes = x.nodes → x.flatten = x)) :
    (collapse op ((args.map flatten).flatMap (parts op))).nodes ≤ (app op args).nodes ∧
      ((collapse op ((args.map flatten).flatMap (parts op))).nodes = (app op args).nodes →
        collapse op ((args.map flatten).flatMap (parts op)) = app op args) := by
  obtain ⟨h1, h1'⟩ := sum_map_le h
  obtain ⟨h2, h2'⟩ := nodes_flatMap_parts op (args.map flatten)
  obtain ⟨h3, h3'⟩ := nodes_collapse op ((args.map flatten).flatMap (parts op))
  have h4 : (app op args).nodes = 2 + total (args.map nodes) := by
    rw [app, nodes_list, List.map_cons, total_cons, nodes]
    omega
  refine ⟨by omega, fun h => ?_⟩
  rw [h3' (by omega), h2' (by omega), h1' (by omega)]

theorem total_clauseWeight_map_flatten {args : List Term}
    (h : ∀ x ∈ args, x.flatten.clauseWeight ≤ x.clauseWeight) :
    total ((args.map flatten).map clauseWeight) ≤ total (args.map clauseWeight) := by
  rw [List.map_map]
  exact sum_map_le_sum_map h

/-- the entries of a list flattened, where the list is no junction -/
theorem clauseWeight_map_flatten {items : List Term}
    (hand : ∀ args, items = .atom "and" :: args → False)
    (hor : ∀ args, items = .atom "or" :: args → False)
    (h : ∀ x ∈ items, x.flatten.clauseWeight ≤ x.clauseWeight) :
    (list (items.map flatten)).clauseWeight ≤ (list items).clauseWeight := by
  match items with
  | [] => exact Nat.le_refl _
  | .atom a :: rest =>
    have ha : a ≠ "and" := fun he => hand rest (by rw [he])
    have ho : a ≠ "or" := fun he => hor rest (by rw [he])
    exact Nat.le_of_eq (by
      rw [List.map_cons, flatten, clauseWeight_of_ne _ ha ho, clauseWeight_of_ne _ ha ho])
  | .list ys :: rest =>
    obtain ⟨hhead, hrest⟩ := List.forall_mem_cons.mp h
    rw [List.map_cons, clauseWeight_list_cons_list]
    have h1 := clauseWeight_list_cons_le (flatten (.list ys)) (rest.map flatten)
    have h2 := total_clauseWeight_map_flatten hrest
    have h3 : product clauseWeight (rest.map flatten) ≤ product clauseWeight rest :=
      product_map_le_product hrest
    omega

/-- flattening raises neither measure, and keeps the number of nodes only of what it leaves as it
is -/
theorem measures_flatten (t : Term) :
    t.flatten.clauseWeight ≤ t.clauseWeight ∧ t.flatten.nodes ≤ t.nodes ∧
      (t.flatten.nodes = t.nodes → t.flatten = t) := by
  induction t using flatten.induct with
  | case1 a => simp [flatten]
  | case2 args ih =>
    rw [flatten]
    refine ⟨?_, nodes_collapse_flatten "and" fun x hx => (ih x hx).2⟩
    have h1 := clauseWeight_collapse_and ((args.map flatten).flatMap (parts "and"))
    have h2 := sum_weight_flatMap_parts (args.map flatten)
    have h3 := total_clauseWeight_map_flatten fun x hx => (ih x hx).1
    rw [show (list (.atom "and" :: args)).clauseWeight = _ from clauseWeight_conj args]
    omega
  | case3 args ih =>
    rw [flatten]
    refine ⟨?_, nodes_collapse_flatten "or" fun x hx => (ih x hx).2⟩
    have h1 := clauseWeight_collapse_or ((args.map flatten).flatMap (parts "or"))
    have h2 := product_weight_flatMap_parts (args.map flatten)
    have h3 := product_map_le_product fun x hx => (ih x hx).1
    rw [show (list (.atom "or" :: args)).clauseWeight = _ from clauseWeight_disj args]
    omega
  | case4 items hand hor ih =>
    have hf : (list items).flatten = .list (items.map flatten) := by
      rw [flatten]
      · exact hand
      · exact hor
    obtain ⟨h1, h2⟩ := sum_map_le (w := nodes) fun x hx => (ih x hx).2
    rw [hf]
    refine ⟨clauseWeight_map_flatten hand hor fun x hx => (ih x hx).1, ?_⟩
    rw [nodes_list, nodes_list]
    exact ⟨by omega, fun h => by rw [h2 (by omega)]⟩

/-! ## distributing -/

theorem eq_conj_of_conjuncts? {t : Term} {cs : List Term} (h : t.conjuncts? = some cs) :
    t = .conj cs := by
  unfold conjuncts? at h
  split at h
  · cases h
    rfl
  · cases h

/-- the weights of the disjunctions that a disjunction with a conjunction in it turns into -/
theorem sum_weight_distributed (before after cs : List Term) :
    total ((cs.map fun c => disj (before ++ c :: after)).map clauseWeight) =
      2 * (product clauseWeight before * product clauseWeight after *
        total (cs.map clauseWeight)) := by
  induction cs with
  | nil => simp
  | cons c cs ih =>
    simp only [List.map_cons, total_cons, ih, clauseWeight_disj, product_append, product_cons]
    rw [Nat.mul_add (_ * _), Nat.mul_left_comm _ c.clauseWeight, Nat.mul_comm _ c.clauseWeight]
    omega

/-- a distributed disjunction weighs less -/
theorem clauseWeight_distributeFrom {before xs : List Term} {t : Term}
    (h : distributeFrom before xs = some t) :
    t.clauseWeight < 2 * product clauseWeight (before ++ xs) := by
  induction xs generalizing before with
  | nil => cases h
  | cons x after ih =>
    rw [distributeFrom] at h
    split at h
    · next cs hx =>
      cases h
      rw [eq_conj_of_conjuncts? hx, clauseWeight_conj, product_append, product_cons,
        clauseWeight_conj]
      have hb : 1 ≤ product clauseWeight before := one_le_product fun y _ => one_le_clauseWeight y
      have ha : 1 ≤ product clauseWeight after := one_le_product fun y _ => one_le_clauseWeight y
      rw [sum_weight_distributed, Nat.mul_left_comm _ (1 + _)]
      generalize hp : product clauseWeight before * product clauseWeight after = p
      have hpos : 1 ≤ p := by
        rw [← hp]
        exact Nat.mul_le_mul hb ha
      rw [Nat.add_mul, Nat.one_mul, Nat.mul_comm p]
      omega
    · have := ih h
      rwa [List.append_assoc] at this

theorem clauseWeight_distributeParts (xs : List Term) :
    (distributeParts xs).clauseWeight ≤ (disj xs).clauseWeight ∧
      ((distributeParts xs).clauseWeight = (disj xs).clauseWeight → distributeParts xs = disj xs) := by
  unfold distributeParts
  cases h : distributeFrom [] xs with
  | none => simp
  | some t =>
    have hlt := clauseWeight_distributeFrom h
    rw [List.nil_append, ← clauseWeight_disj] at hlt
    exact ⟨Nat.le_of_lt hlt, fun he => absurd he (Nat.ne_of_lt hlt)⟩

/-- distributing never adds weight, and keeps the weight only of what it leaves as it is -/
theorem clauseWeight_distribute (t : Term) :
    t.distribute.clauseWeight ≤ t.clauseWeight ∧
      (t.distribute.clauseWeight = t.clauseWeight → t.distribute = t) := by
  induction t using distribute.induct with
  | case1 a => simp [distribute]
  | case2 args ih =>
    obtain ⟨h1, h2⟩ := sum_map_le ih
    rw [distribute, clauseWeight_conj,
      show (list (.atom "and" :: args)).clauseWeight = _ from clauseWeight_conj args]
    exact ⟨by omega, fun h => by rw [h2 (by omega)]; rfl⟩
  | case3 args ih =>
    obtain ⟨h1, h2⟩ := product_map_le one_le_clauseWeight ih
    obtain ⟨h3, h4⟩ := clauseWeight_distributeParts (args.map distribute)
    rw [clauseWeight_disj] at h3 h4
    rw [distribute, show (list (.atom "or" :: args)).clauseWeight = _ from clauseWeight_disj args]
    exact ⟨by omega, fun h => by rw [h4 (by omega), h2 (by omega)]; rfl⟩
  | case4 items h1 h2 =>
    rw [distribute]
    · simp
    · exact h1
    · exact h2

/-! ## all rounds -/

/-- a round that changes a term lowers the weight, or keeps it and lowers the number of nodes -/
theorem weight_clauseRound {t : Term} (h : t.clauseRound ≠ t) :
    Prod.Lex (· < ·) (· < ·) (t.clauseRound.clauseWeight, t.clauseRound.nodes)
      (t.clauseWeight, t.nodes) := by
  obtain ⟨hw, hw'⟩ := clauseWeight_distribute t
  obtain ⟨hf, hn, hn'⟩ := measures_flatten t.distribute
  rcases Nat.lt_or_eq_of_le hw with hlt | heq
  · exact Prod.Lex.left _ _ (Nat.lt_of_le_of_lt hf hlt)
  · rw [hw' heq] at hf hn hn'
    rw [clauseRound, hw' heq] at h ⊢
    have hlt : t.flatten.nodes < t.nodes := Nat.lt_of_le_of_ne hn fun he => h (hn' he)
    rcases Nat.lt_or_eq_of_le hf with hlt' | heq'
    · exact Prod.Lex.left _ _ hlt'
    · rw [heq']
      exact Prod.Lex.right _ hlt

/-- rounds until nothing changes -/
def clauseRounds (t : Term) : Term :=
  if t.clauseRound = t then t else t.clauseRound.clauseRounds
termination_by (t.clauseWeight, t.nodes)
decreasing_by exact weight_clauseRound ‹_›

/-- a conjunction of disjunctions, as far as the connectives outside of atomic formulas go -/
def disjunctionsIn (t : Term) : Term := t.flatten.clauseRounds

theorem clauseRounds_of_eq {t : Term} (h : t.clauseRound = t) : t.clauseRounds = t := by
  rw [clauseRounds, if_pos h]

theorem clauseRound_clauseRounds (t : Term) : t.clauseRounds.clauseRound = t.clauseRounds := by
  induction t using clauseRounds.induct with
  | case1 t h => rw [clauseRounds_of_eq h, h]
  | case2 t h ih => rwa [clauseRounds, if_neg h]

/-- the result is a fixed point -/
theorem clauseRound_disjunctionsIn (t : Term) : t.disjunctionsIn.clauseRound = t.disjunctionsIn :=
  clauseRound_clauseRounds t.flatten

end OntologyPrep.Term
