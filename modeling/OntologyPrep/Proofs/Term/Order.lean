import OntologyPrep.Term.Order
import Std.Data.TreeMap

/-!
# The order of terms is one

The order of terms is linear and tells all terms apart, so that a set of terms can be held in sorted
order: a term is found in it exactly if it has been put there.
-/

namespace OntologyPrep.Term

mutual

theorem cmp_swap (s t : Term) : cmp s t = (cmp t s).swap := by
  match s, t with
  | .atom a, .atom b => exact Std.OrientedOrd.eq_swap (a := a)
  | .atom _, .list _ => rfl
  | .list _, .atom _ => rfl
  | .list xs, .list ys => rw [cmp, cmp, cmpList_swap xs ys]

theorem cmpList_swap (xs ys : List Term) : cmpList xs ys = (cmpList ys xs).swap := by
  match xs, ys with
  | [], [] => rfl
  | [], _ :: _ => rfl
  | _ :: _, [] => rfl
  | x :: xs, y :: ys =>
    rw [cmpList, cmpList, Ordering.swap_then, cmp_swap x y, cmpList_swap xs ys]

end

theorem cmp_self (t : Term) : cmp t t = .eq := by
  have hswap := cmp_swap t t
  cases h : cmp t t with
  | eq => rfl
  | lt => rw [h] at hswap; cases hswap
  | gt => rw [h] at hswap; cases hswap

mutual

/-- only a term itself is neither before nor behind it -/
theorem eq_of_cmp {s t : Term} (h : cmp s t = .eq) : s = t := by
  match s, t with
  | .atom a, .atom b => exact congrArg atom (Std.LawfulEqOrd.eq_of_compare (a := a) h)
  | .list xs, .list ys => exact congrArg list (eq_of_cmpList h)

theorem eq_of_cmpList {xs ys : List Term} (h : cmpList xs ys = .eq) : xs = ys := by
  match xs, ys with
  | [], [] => rfl
  | x :: xs, y :: ys =>
    rw [cmpList, Ordering.then_eq_eq] at h
    rw [eq_of_cmp h.1, eq_of_cmpList h.2]

end

/-- a term that is not behind another one is before it, if a term between them is behind the first and
before the last -/
theorem cmp_lt_of_isLE {x y z : Term} (h : (cmp x z).isLE) (hxy : cmp x y = .lt)
    (hyz : cmp y z = .lt) : cmp x z = .lt := by
  rcases Ordering.isLE_iff_eq_lt_or_eq_eq.mp h with h | h
  · exact h
  · obtain rfl := eq_of_cmp h
    rw [cmp_swap, hyz] at hxy
    cases hxy

mutual

theorem cmp_isLE_trans {s t u : Term} (h : (cmp s t).isLE) (h' : (cmp t u).isLE) :
    (cmp s u).isLE := by
  match s, t, u with
  | .atom a, .atom b, .atom c => exact Std.TransOrd.isLE_trans (a := a) (b := b) h h'
  | .atom _, _, .list _ => rfl
  | .list xs, .list ys, .list zs => exact cmpList_isLE_trans h h'

theorem cmpList_isLE_trans {xs ys zs : List Term} (h : (cmpList xs ys).isLE)
    (h' : (cmpList ys zs).isLE) : (cmpList xs zs).isLE := by
  match xs, ys, zs with
  | [], _, [] => rfl
  | [], _, _ :: _ => rfl
  | x :: xs, y :: ys, z :: zs =>
    rw [cmpList, Ordering.isLE_then_iff_or] at h h' ⊢
    rcases h with hxy | ⟨hxy, hxs⟩
    · rcases h' with hyz | ⟨hyz, _⟩
      · exact .inl (cmp_lt_of_isLE (cmp_isLE_trans (by rw [hxy]; rfl) (by rw [hyz]; rfl)) hxy hyz)
      · rw [eq_of_cmp hyz] at hxy
        exact .inl hxy
    · rw [eq_of_cmp hxy]
      exact h'.imp_right (And.imp_right (cmpList_isLE_trans hxs))

end

instance : Std.TransOrd Term where
  eq_swap := cmp_swap _ _
  isLE_trans := cmp_isLE_trans

instance : Std.LawfulEqOrd Term where
  compare_self := cmp_self _
  eq_of_compare := eq_of_cmp

end OntologyPrep.Term
