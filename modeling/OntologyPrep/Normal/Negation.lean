import OntologyPrep.Term.Basic
import OntologyPrep.Weight

/-!
# Negations moved inwards

`Term.pushNegations` moves every negation that it meets down to the atomic formulas: two negations
cancel, a negated conjunction or disjunction becomes the other one of negated parts, a negated
quantified formula takes the other quantifier.  `Term.negationsIn` repeats this until nothing
changes.

The repetition ends on every term, also where an operator has a wrong number of arguments or a list
stands in the place of a head: `Term.negationWeight` drops whenever a term changes
(`Term.weight_pushNegations_lt`).  The result is a fixed point (`Term.pushNegations_negationsIn`).
-/

namespace OntologyPrep.Term

/-- the term, or its negation if it is not `positive`, with the negations in it moved inwards -/
def settle (positive : Bool) : Term → Term
  | .atom a =>
    if positive then .atom a
    else if a = trueName then .falsum
    else if a = falseName then .verum
    else .neg (.atom a)
  | .list items =>
    match positive, items with
    | _, [.atom "not", t] => t.settle (!positive)
    | true, items => .list (items.map (settle true))
    | false, .atom "and" :: args => .disj (args.map (settle false))
    | false, .atom "or" :: args => .conj (args.map (settle false))
    | false, [.atom "forall", entries, body] =>
      .list [.atom "exists", entries, body.settle false]
    | false, [.atom "exists", entries, body] =>
      .list [.atom "forall", entries, body.settle false]
    | false, items => .neg (.list items)

/-- the negations of a term moved inwards once -/
def pushNegations (t : Term) : Term := t.settle true

/-! ## the weight that drops -/

/-- a weight for terms in which a negation squares: a list that starts with a list weighs more than
anything it could turn into once its head has become an atom -/
def negationWeight : Term → Nat
  | .atom _ => 2
  | .list [.atom "not", t] => t.negationWeight * t.negationWeight
  | .list (.list ys :: rest) =>
    let r := total (rest.map negationWeight)
    2 + (Term.list ys).negationWeight + (2 + r) * (2 + r)
  | .list items => 2 + total (items.map negationWeight)

theorem weight_not (t : Term) :
    (list [.atom "not", t]).negationWeight = t.negationWeight * t.negationWeight := by
  rw [negationWeight]

theorem weight_neg (t : Term) : t.neg.negationWeight = t.negationWeight * t.negationWeight :=
  weight_not t

theorem weight_list_cons_list (ys rest : List Term) :
    (list (.list ys :: rest)).negationWeight =
      2 + (list ys).negationWeight +
        (2 + total (rest.map negationWeight)) * (2 + total (rest.map negationWeight)) := by
  rw [negationWeight]

theorem weight_list_of_ne {items : List Term} (hn : ∀ t, items = [.atom "not", t] → False)
    (hl : ∀ ys rest, items = .list ys :: rest → False) :
    (list items).negationWeight = 2 + total (items.map negationWeight) := by
  rw [negationWeight]
  · exact hn
  · exact hl

theorem weight_app {h : String} (args : List Term) (hn : h ≠ "not") :
    (app h args).negationWeight = 4 + total (args.map negationWeight) := by
  rw [app, weight_list_of_ne (by simp [hn]) (by simp), List.map_cons, total_cons,
    negationWeight]
  omega

theorem two_le_weight (t : Term) : 2 ≤ t.negationWeight := by
  induction t using negationWeight.induct with
  | case1 a => exact Nat.le_of_eq (by rw [negationWeight])
  | case2 t ih =>
    rw [weight_not]
    exact Nat.le_trans (by decide) (Nat.mul_le_mul ih ih)
  | case3 ys rest _ _ =>
    rw [weight_list_cons_list]
    omega
  | case4 items hn hl _ =>
    rw [weight_list_of_ne hn hl]
    omega

/-- a list that starts with a name weighs no more than the square of what stands behind the name -/
theorem weight_list_cons_atom_le (a : String) (rest : List Term) :
    (list (.atom a :: rest)).negationWeight ≤
      (2 + total (rest.map negationWeight)) * (2 + total (rest.map negationWeight)) := by
  by_cases hnot : ∃ t, Term.atom a :: rest = [.atom "not", t]
  · obtain ⟨t, ht⟩ := hnot
    rw [ht, weight_not, (List.cons.inj ht).2]
    simp only [List.map_cons, List.map_nil, total_cons, total_nil]
    exact Nat.mul_le_mul (by omega) (by omega)
  · rw [weight_list_of_ne (fun t ht => hnot ⟨t, ht⟩) (by simp), List.map_cons, total_cons,
      negationWeight]
    have : (2 + total (rest.map negationWeight)) * 2 ≤
        (2 + total (rest.map negationWeight)) * (2 + total (rest.map negationWeight)) :=
      Nat.mul_le_mul_left _ (by omega)
    omega

/-- a term is lighter than its double negation -/
theorem weight_lt_not_not (t : Term) :
    t.negationWeight < (list [.atom "not", t]).neg.negationWeight := by
  have h := two_le_weight t
  have h1 : t.negationWeight * 2 ≤ t.negationWeight * t.negationWeight := Nat.mul_le_mul_left _ h
  have h2 : t.negationWeight * t.negationWeight * 1 ≤
      t.negationWeight * t.negationWeight * (t.negationWeight * t.negationWeight) :=
    Nat.mul_le_mul_left _ (by omega)
  rw [weight_neg, weight_not]
  omega

/-- the second term weighs no more than the first one, and as much only if it is the first one -/
def Settles (t u : Term) : Prop :=
  u.negationWeight ≤ t.negationWeight ∧ (u.negationWeight = t.negationWeight → u = t)

theorem Settles.refl (t : Term) : t.Settles t := ⟨Nat.le_refl _, fun _ => rfl⟩

theorem Settles.of_lt {t u : Term} (h : u.negationWeight < t.negationWeight) : t.Settles u :=
  ⟨Nat.le_of_lt h, fun he => absurd he (Nat.ne_of_lt h)⟩

/-! ## sums of weights -/

/-- parts that weigh no more weigh no more together, and the same only if none has changed -/
theorem sum_weight_map {xs : List Term} {f : Term → Term} (h : ∀ x ∈ xs, x.Settles (f x)) :
    total ((xs.map f).map negationWeight) ≤ total (xs.map negationWeight) ∧
      (total ((xs.map f).map negationWeight) = total (xs.map negationWeight) → xs.map f = xs) := by
  induction xs with
  | nil => simp
  | cons x xs ih =>
    obtain ⟨hx, hx'⟩ := h x (by simp)
    obtain ⟨hs, hs'⟩ := ih fun y hy => h y (by simp [hy])
    simp only [List.map_cons, total_cons]
    constructor
    · omega
    · intro he
      rw [hx' (by omega), hs' (by omega)]

theorem square_add (a b : Nat) : (a + b) * (a + b) = a * a + 2 * (a * b) + b * b := by
  rw [Nat.add_mul, Nat.mul_add, Nat.mul_add, Nat.mul_comm b a]
  omega

/-- the squares of some weights sum up to less than the square of the sum -/
theorem sum_weight_lt_square {xs : List Term} {f : Term → Term}
    (h : ∀ x ∈ xs, (f x).negationWeight ≤ x.negationWeight * x.negationWeight) :
    4 + total ((xs.map f).map negationWeight) <
      (4 + total (xs.map negationWeight)) * (4 + total (xs.map negationWeight)) := by
  induction xs with
  | nil => simp
  | cons x xs ih =>
    have hx := h x (by simp)
    have hs := ih fun y hy => h y (by simp [hy])
    have := square_add (4 + total (xs.map negationWeight)) x.negationWeight
    simp only [List.map_cons, total_cons]
    rw [show 4 + (x.negationWeight + total (xs.map negationWeight)) =
      4 + total (xs.map negationWeight) + x.negationWeight by omega]
    omega

/-- a quantified formula whose body is settled weighs less than the negated one -/
theorem weight_dual_lt {h h' : String} (entries : Term) {body body' : Term} (hh : h ≠ "not")
    (hh' : h' ≠ "not") (hb : body'.negationWeight ≤ body.negationWeight * body.negationWeight) :
    (list [.atom h, entries, body']).negationWeight <
      (list [.atom h', entries, body]).negationWeight *
        (list [.atom h', entries, body]).negationWeight := by
  have h1 : (list [.atom h, entries, body']).negationWeight = _ := weight_app [entries, body'] hh
  have h2 : (list [.atom h', entries, body]).negationWeight = _ := weight_app [entries, body] hh'
  simp only [List.map_cons, List.map_nil, total_cons, total_nil, Nat.add_zero] at h1 h2
  have := square_add (4 + entries.negationWeight) body.negationWeight
  have : (4 + entries.negationWeight) * 1 ≤
      (4 + entries.negationWeight) * (4 + entries.negationWeight) :=
    Nat.mul_le_mul_left _ (by omega)
  have h3 := two_le_weight body
  have h4 : (4 + entries.negationWeight) * 1 ≤
      (4 + entries.negationWeight) * body.negationWeight := Nat.mul_le_mul_left _ (by omega)
  rw [h1, h2, show 4 + (entries.negationWeight + body.negationWeight) =
    4 + entries.negationWeight + body.negationWeight by omega]
  omega

/-! ## lists whose entries have settled -/

/-- the entries behind a name have settled, in a list that is no negation -/
theorem settles_atom_cons {a : String} {rest : List Term} {f : Term → Term}
    (hnot : ∀ t, Term.atom a :: rest = [.atom "not", t] → False)
    (h : ∀ x ∈ rest, x.Settles (f x)) :
    (list (.atom a :: rest)).Settles (.list (.atom a :: rest.map f)) := by
  have hnot' : ∀ t, Term.atom a :: rest.map f = [.atom "not", t] → False := by
    intro t ht
    obtain ⟨ha, hrest⟩ := List.cons.inj ht
    obtain ⟨x, rfl, -⟩ := List.map_eq_singleton_iff.mp hrest
    exact hnot x (by rw [ha])
  obtain ⟨hle, heq⟩ := sum_weight_map h
  rw [Settles, weight_list_of_ne hnot (by simp), weight_list_of_ne hnot' (by simp), List.map_cons,
    List.map_cons, total_cons, total_cons]
  exact ⟨by omega, fun he => by rw [heq (by omega)]⟩

/-- a list that starts with a list makes up for a name in the place of the head, whatever follows -/
theorem settles_list_cons {ys rest : List Term} {f : Term → Term}
    (hhead : (list ys).Settles (f (.list ys))) (h : ∀ x ∈ rest, x.Settles (f x)) :
    (list (.list ys :: rest)).Settles (.list (f (.list ys) :: rest.map f)) := by
  obtain ⟨hle, heq⟩ := sum_weight_map h
  obtain ⟨hyle, hyeq⟩ := hhead
  rw [Settles, weight_list_cons_list]
  generalize hr' : total ((rest.map f).map negationWeight) = r' at *
  generalize total (rest.map negationWeight) = r at *
  have hsquare : (2 + r') * (2 + r') ≤ (2 + r) * (2 + r) :=
    Nat.mul_le_mul (by omega) (by omega)
  cases hy : f (.list ys) with
  | atom a =>
    have hlight := weight_list_cons_atom_le a (rest.map f)
    rw [hr'] at hlight
    have hheavy := two_le_weight (list ys)
    exact ⟨by omega, fun he => by omega⟩
  | list zs =>
    rw [hy] at hyle hyeq
    rw [weight_list_cons_list, hr']
    refine ⟨by omega, fun he => ?_⟩
    have hsame : r' = r := by
      rcases Nat.lt_or_eq_of_le hle with hlt | hsame
      · have : (2 + r') * (2 + r') < (2 + r) * (2 + r) :=
          Nat.mul_lt_mul'' (by omega) (by omega)
        omega
      · exact hsame
    subst hsame
    rw [hyeq (by omega), heq rfl]

/-- a negated junction settles to one of its negated parts -/
theorem settles_junction {h h' : String} {args : List Term} {f : Term → Term} (hh : h ≠ "not")
    (hh' : h' ≠ "not") (hargs : ∀ x ∈ args, x.neg.Settles (f x)) :
    (app h args).neg.Settles (app h' (args.map f)) := by
  have hlt := sum_weight_lt_square (f := f) fun x hx => by
    rw [← weight_neg]
    exact (hargs x hx).1
  refine .of_lt ?_
  rw [weight_neg, weight_app args hh, weight_app (args.map f) hh']
  exact hlt

/-- a negated quantified formula settles to the other one of its negated body -/
theorem settles_dual {h h' : String} (entries : Term) {body body' : Term} (hh : h ≠ "not")
    (hh' : h' ≠ "not") (hbody : body.neg.Settles body') :
    (list [.atom h, entries, body]).neg.Settles (.list [.atom h', entries, body']) := by
  refine .of_lt ?_
  rw [weight_neg]
  refine weight_dual_lt entries hh' hh ?_
  rw [← weight_neg]
  exact hbody.1

/-! ## the weight and a round -/

/-- the formula that `settle` works on -/
def signed (positive : Bool) (t : Term) : Term := if positive then t else t.neg

/-- settling never adds weight, and keeps the weight only of what it leaves as it is -/
theorem settles_settle (positive : Bool) (t : Term) :
    (t.signed positive).Settles (t.settle positive) := by
  induction positive, t using settle.induct with
  | case1 a =>
    rw [settle]
    exact .refl _
  | case2 positive hp =>
    rw [signed, if_neg hp, settle, if_neg hp, if_pos rfl]
    exact .of_lt (by simp [falsum, weight_neg, negationWeight])
  | case3 positive hp hf =>
    rw [signed, if_neg hp, settle, if_neg hp, if_neg hf, if_pos rfl]
    exact .of_lt (by simp [verum, weight_neg, negationWeight])
  | case4 positive a hp ht hf =>
    rw [signed, if_neg hp, settle, if_neg hp, if_neg ht, if_neg hf]
    exact .refl _
  | case5 positive t ih =>
    rw [show (list [.atom "not", t]).settle positive = t.settle (!positive) by
      cases positive <;> rw [settle]]
    cases positive with
    | true => exact ih
    | false => exact .of_lt (Nat.lt_of_le_of_lt ih.1 (weight_lt_not_not t))
  | case6 items hnot ih =>
    rw [show (list items).settle true = .list (items.map (settle true)) by rw [settle]; exact hnot]
    match items with
    | [] => exact .refl _
    | .atom a :: rest =>
      have hhead : (Term.atom a).settle true = .atom a := by rw [settle]; rfl
      rw [List.map_cons, hhead]
      exact settles_atom_cons hnot fun x hx => ih x (List.mem_cons_of_mem _ hx)
    | .list ys :: rest =>
      exact settles_list_cons (ih _ List.mem_cons_self) fun x hx =>
        ih x (List.mem_cons_of_mem _ hx)
  | case7 args ih =>
    rw [settle]
    exact settles_junction (by decide) (by decide) ih
  | case8 args ih =>
    rw [settle]
    exact settles_junction (by decide) (by decide) ih
  | case9 entries body ih =>
    rw [settle]
    exact settles_dual entries (by decide) (by decide) ih
  | case10 entries body ih =>
    rw [settle]
    exact settles_dual entries (by decide) (by decide) ih
  | case11 items h1 h2 h3 h4 h5 =>
    rw [show (list items).settle false = .neg (.list items) by rw [settle] <;> assumption]
    exact .refl _

/-- a round that changes a term makes it lighter -/
theorem weight_pushNegations_lt {t : Term} (h : t.pushNegations ≠ t) :
    t.pushNegations.negationWeight < t.negationWeight := by
  obtain ⟨hle, heq⟩ := settles_settle true t
  exact Nat.lt_of_le_of_ne hle fun he => h (heq he)

/-! ## all rounds -/

/-- the negations of a term moved inwards until nothing changes -/
def negationsIn (t : Term) : Term :=
  if t.pushNegations = t then t else t.pushNegations.negationsIn
termination_by t.negationWeight
decreasing_by exact weight_pushNegations_lt ‹_›

theorem negationsIn_of_eq {t : Term} (h : t.pushNegations = t) : t.negationsIn = t := by
  rw [negationsIn, if_pos h]

/-- the result is a fixed point -/
theorem pushNegations_negationsIn (t : Term) : t.negationsIn.pushNegations = t.negationsIn := by
  induction t using negationsIn.induct with
  | case1 t h => rw [negationsIn_of_eq h, h]
  | case2 t h ih => rwa [negationsIn, if_neg h]

end OntologyPrep.Term
