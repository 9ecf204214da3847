import OntologyPrep.Clause.Form
import OntologyPrep.Proofs.Normal.Shape
import OntologyPrep.Proofs.Term.Bound

/-!
# The steps do not look at the spelling of names

A respelling gives every name another spelling, one to one.  It keeps the operators and the truth
constants, and variables stay variables of their kind.  Every step on the way to clauses does with the
respelled term what it does with the term, and respells the result: `Respelling.negationsIn`,
`Respelling.disjunctionsIn`, `Respelling.clauses` and one such equation for each of the others.  None of
them asks for a well-formed formula.
-/

namespace OntologyPrep

/-- another spelling for every name that nothing on the way to clauses can tell from the first one -/
structure Respelling (f : String → String) : Prop where
  inj : ∀ {a b : String}, f a = f b → a = b
  operator : ∀ o : Operator, f o.name = o.name
  verum : f trueName = trueName
  falsum : f falseName = falseName
  isVariable : ∀ a, Name.isVariable (f a) = Name.isVariable a
  isRowVariable : ∀ a, Name.isRowVariable (f a) = Name.isRowVariable a

/-! ## lists under an injective function -/

theorem eq_of_map_eq {α β : Type} {f : α → β} {xs ys : List α} (h : xs.map f = ys.map f)
    (hf : ∀ x ∈ xs, ∀ y ∈ ys, f x = f y → x = y) : xs = ys := by
  induction xs generalizing ys with
  | nil => exact (List.map_eq_nil_iff.mp h.symm).symm
  | cons x xs ih =>
    obtain ⟨y, ys, rfl, hy, hys⟩ := List.map_eq_cons_iff.mp h.symm
    rw [hf x List.mem_cons_self y List.mem_cons_self hy.symm,
      ih hys.symm fun z hz w hw => hf z (List.mem_cons_of_mem _ hz) w (List.mem_cons_of_mem _ hw)]

theorem mem_map_of_inj {α β : Type} {f : α → β} (hf : ∀ {x y}, f x = f y → x = y) {x : α}
    {xs : List α} : f x ∈ xs.map f ↔ x ∈ xs := by
  rw [List.mem_map]
  constructor
  · rintro ⟨y, hy, he⟩
    exact hf he ▸ hy
  · exact fun hx => ⟨x, hx, rfl⟩

theorem eraseDups_map_of_inj {f : String → String} (hf : ∀ {a b}, f a = f b → a = b)
    (names : List String) : (names.map f).eraseDups = names.eraseDups.map f := by
  match names with
  | [] => rfl
  | a :: names =>
    have hother : ((fun b => !b == f a) ∘ f) = fun b => !b == a := by
      funext b
      by_cases he : b = a
      · simp [he]
      · have hne : f b ≠ f a := fun hc => he (hf hc)
        simp [he, hne]
    have hshort := List.length_filter_le (fun b => !b == a) names
    rw [List.map_cons, List.eraseDups_cons, List.eraseDups_cons, List.map_cons, List.filter_map,
      hother, eraseDups_map_of_inj hf]
termination_by names.length

theorem Distinct.add_map {α β : Type} [DecidableEq α] [DecidableEq β] {f : α → β}
    (hf : ∀ {x y}, f x = f y → x = y) (xs : List α) (x : α) :
    add (xs.map f) (f x) = (add xs x).map f := by
  unfold add
  by_cases hx : x ∈ xs
  · rw [if_pos hx, if_pos ((mem_map_of_inj hf).mpr hx)]
  · rw [if_neg hx, if_neg fun hc => hx ((mem_map_of_inj hf).mp hc), List.map_append,
      List.map_singleton]

namespace Term

/-- every name spelled another way -/
def respell (f : String → String) (t : Term) : Term := t.mapAtoms f

theorem respell_atom (f : String → String) (a : String) : (atom a).respell f = .atom (f a) :=
  mapAtoms_atom a f

theorem respell_list (f : String → String) (xs : List Term) :
    (list xs).respell f = .list (xs.map (respell f)) := mapAtoms_list xs f

theorem atoms_respell (f : String → String) (t : Term) : (t.respell f).atoms = t.atoms.map f := by
  match t with
  | .atom a => rw [respell_atom, atoms_atom, atoms_atom, List.map_singleton]
  | .list xs =>
    rw [respell_list, atoms_list, atoms_list, List.map_flatMap, List.flatMap_map, List.flatMap_def,
      List.flatMap_def, List.map_congr_left fun x _ => atoms_respell f x]

theorem respell_congr {f g : String → String} {t : Term} (h : ∀ a ∈ t.atoms, f a = g a) :
    t.respell f = t.respell g := by
  match t with
  | .atom a => rw [respell_atom, respell_atom, h a (by simp)]
  | .list xs =>
    rw [respell_list, respell_list, List.map_congr_left fun x hx => respell_congr fun a ha =>
      h a (by simpa using ⟨x, hx, ha⟩)]

theorem respell_respell (f g : String → String) (t : Term) :
    (t.respell f).respell g = t.respell fun a => g (f a) := by
  match t with
  | .atom a => rw [respell_atom, respell_atom, respell_atom]
  | .list xs =>
    rw [respell_list, respell_list, respell_list, List.map_map]
    exact congrArg list (List.map_congr_left fun x _ => respell_respell f g x)

theorem respell_eq_self {f : String → String} {t : Term} (h : ∀ a ∈ t.atoms, f a = a) :
    t.respell f = t := by
  match t with
  | .atom a => rw [respell_atom, h a (by simp)]
  | .list xs =>
    rw [respell_list, map_eq_self fun x hx => respell_eq_self fun a ha =>
      h a (by simpa using ⟨x, hx, ha⟩)]

/-- a term is recovered from its spelling if no two names of the terms are spelled alike -/
theorem respell_inj {f : String → String} {t u : Term}
    (hf : ∀ a ∈ t.atoms, ∀ b ∈ u.atoms, f a = f b → a = b) (h : t.respell f = u.respell f) : t = u := by
  match t, u with
  | .atom a, .atom b =>
    rw [respell_atom, respell_atom, atom.injEq] at h
    rw [hf a (by simp) b (by simp) h]
  | .atom a, .list ys =>
    rw [respell_atom, respell_list] at h
    cases h
  | .list xs, .atom b =>
    rw [respell_atom, respell_list] at h
    cases h
  | .list xs, .list ys =>
    rw [respell_list, respell_list, list.injEq] at h
    rw [eq_of_map_eq h fun x hx y hy hxy => respell_inj (fun a ha b hb =>
      hf a (by simpa using ⟨x, hx, ha⟩) b (by simpa using ⟨y, hy, hb⟩)) hxy]

end Term

/-! ## a binder respelled -/

/-- the view of the respelled formula -/
def Binder.respell (f : String → String) (b : Binder) : Binder :=
  ⟨b.quantifier, b.entries.respell f, b.body.respell f⟩

namespace Respelling

open Term

variable {f : String → String} (hf : Respelling f)

include hf

theorem apply (o : Operator) (args : List Term) :
    (Term.apply o args).respell f = .apply o (args.map (respell f)) := by
  rw [Term.apply, app, respell_list, List.map_cons, respell_atom, hf.operator]
  rfl

theorem conj (args : List Term) : (Term.conj args).respell f = .conj (args.map (respell f)) :=
  hf.apply .conj args

theorem disj (args : List Term) : (Term.disj args).respell f = .disj (args.map (respell f)) :=
  hf.apply .disj args

theorem neg (t : Term) : t.neg.respell f = (t.respell f).neg := hf.apply .neg [t]

theorem term_inj {t u : Term} (h : t.respell f = u.respell f) : t = u :=
  respell_inj (fun _ _ _ _ he => hf.inj he) h

/-- what is respelled as an application of an operator is one -/
theorem exists_of_map_eq {o : Operator} {xs args' : List Term}
    (h : xs.map (respell f) = .atom o.name :: args') :
    ∃ args, xs = .atom o.name :: args ∧ args' = args.map (respell f) := by
  obtain ⟨x, args, rfl, hx, rfl⟩ := List.map_eq_cons_iff.mp h
  have hop : (atom o.name).respell f = .atom o.name := by rw [respell_atom, hf.operator]
  exact ⟨args, by rw [hf.term_inj (hx.trans hop.symm)], rfl⟩

theorem exists_of_eq_apply {o : Operator} {t : Term} {args' : List Term}
    (h : t.respell f = Term.apply o args') :
    ∃ args, t = Term.apply o args ∧ args' = args.map (respell f) := by
  match t with
  | .atom a =>
    rw [respell_atom] at h
    cases h
  | .list xs =>
    rw [respell_list] at h
    obtain ⟨args, rfl, he⟩ := hf.exists_of_map_eq (Term.list.inj h)
    exact ⟨args, rfl, he⟩

theorem exists_of_eq_pair {o : Operator} {t a' b' : Term}
    (h : t.respell f = Term.apply o [a', b']) : ∃ a b, t = Term.apply o [a, b] := by
  obtain ⟨args, rfl, he⟩ := hf.exists_of_eq_apply h
  obtain ⟨a, args, rfl, _, he⟩ := List.map_eq_cons_iff.mp he.symm
  obtain ⟨b, args, rfl, _, he⟩ := List.map_eq_cons_iff.mp he
  exact ⟨a, b, by rw [List.map_eq_nil_iff.mp he]⟩

theorem exists_of_eq_neg {t u : Term} (h : t.respell f = u.neg) : ∃ s : Term, t = s.neg := by
  obtain ⟨args, rfl, he⟩ := hf.exists_of_eq_apply h
  obtain ⟨a, args, rfl, _, he⟩ := List.map_eq_cons_iff.mp he.symm
  exact ⟨a, by rw [List.map_eq_nil_iff.mp he]; rfl⟩

omit hf in
theorem map_congr {g h : Term → Term} {xs : List Term}
    (heq : ∀ x ∈ xs, g (x.respell f) = (h x).respell f) :
    (xs.map (respell f)).map g = (xs.map h).map (respell f) := by
  rw [List.map_map, List.map_map]
  exact List.map_congr_left heq

theorem operator? (t : Term) : (t.respell f).operator? = t.operator? := by
  cases h : t.operator? with
  | some o =>
    rw [eq_apply_of_operator? h, hf.apply]
    exact Operator.ofName?_name o
  | none =>
    rw [Option.eq_none_iff_forall_ne_some]
    intro o ho
    obtain ⟨args, rfl, _⟩ := hf.exists_of_eq_apply (eq_apply_of_operator? ho)
    exact absurd ((Operator.ofName?_name o).symm.trans h) (by simp)

omit hf in
theorem args (t : Term) : (t.respell f).args = t.args.map (respell f) := by
  cases t with
  | atom a => rw [respell_atom]; rfl
  | list xs => rw [respell_list]; exact List.map_drop.symm

/-! ## quantified formulas -/

theorem toTerm (b : Binder) : b.toTerm.respell f = (b.respell f).toTerm :=
  hf.apply (.quant b.quantifier) [b.entries, b.body]

theorem binder? (t : Term) : (t.respell f).binder? = t.binder?.map (Binder.respell f) := by
  cases h : t.binder? with
  | some b =>
    rw [binder?_eq_some_iff.mp h, hf.toTerm, binder?_toTerm]
    rfl
  | none =>
    rw [Option.map_none, Option.eq_none_iff_forall_ne_some]
    intro b hb
    obtain ⟨entries, body, rfl⟩ :=
      hf.exists_of_eq_pair (o := .quant b.quantifier) (binder?_eq_some_iff.mp hb)
    have hsome : (Term.apply (.quant b.quantifier) [entries, body]).binder? = _ :=
      binder?_toTerm ⟨b.quantifier, entries, body⟩
    rw [hsome] at h
    cases h

theorem binder?_list {xs : List Term} (h : (list xs).binder? = none) :
    (list (xs.map (respell f))).binder? = none := by
  rw [← respell_list, hf.binder?, h]
  rfl

omit hf in
theorem name? (t : Term) : (t.respell f).name? = t.name?.map f := by
  cases t with
  | atom a => rw [respell_atom]; rfl
  | list xs => rw [respell_list]; rfl

omit hf in
theorem names (b : Binder) : (b.respell f).names = b.names.map f := by
  rcases b with ⟨q, entries, body⟩
  cases entries with
  | atom a =>
    show Binder.names ⟨q, (atom a).respell f, body.respell f⟩ = _
    rw [respell_atom]
    rfl
  | list xs =>
    show Binder.names ⟨q, (list xs).respell f, body.respell f⟩ = (xs.filterMap Term.name?).map f
    rw [respell_list, List.map_filterMap]
    show (xs.map (respell f)).filterMap Term.name? = _
    rw [List.filterMap_map]
    exact congrArg (xs.filterMap ·) (funext name?)

omit hf in
theorem map_atom (names : List String) :
    (names.map atom).map (respell f) = (names.map f).map atom := by
  rw [List.map_map, List.map_map]
  exact List.map_congr_left fun a _ => respell_atom f a

theorem quantified (q : Quantifier) (names : List String) (body : Term) :
    (Term.quantified q.name names body).respell f =
      .quantified q.name (names.map f) (body.respell f) := by
  refine (hf.apply (.quant q) [list (names.map atom), body]).trans ?_
  rw [List.map_cons, List.map_singleton, respell_list, map_atom]
  rfl

omit hf in
theorem boundNames (hf : Respelling f) (t : Term) :
    (t.respell f).boundNames = t.boundNames.map f := by
  unfold Term.boundNames
  rw [hf.binder?]
  cases t.binder? with
  | none => rfl
  | some b => exact names b

theorem substitute (t : Term) (name : String) (value : Term) :
    (t.respell f).substitute (f name) (value.respell f) = (t.substitute name value).respell f := by
  match t with
  | .atom a =>
    rw [respell_atom, substitute_atom, substitute_atom]
    by_cases he : a = name
    · rw [if_pos he, if_pos (congrArg f he)]
    · rw [if_neg he, if_neg fun hc => he (hf.inj hc), respell_atom]
  | .list xs =>
    have hbound : f name ∈ ((list xs).respell f).boundNames ↔ name ∈ (list xs).boundNames := by
      rw [hf.boundNames, mem_map_of_inj hf.inj]
    by_cases hb : name ∈ (list xs).boundNames
    · rw [substitute_of_bound value hb, substitute_of_bound _ (hbound.mpr hb)]
    · rw [substitute_list value hb, respell_list, respell_list, substitute_list,
        map_congr fun x _ => substitute x name value]
      rw [← respell_list]
      exact fun hc => hb (hbound.mp hc)

theorem freeOccurrences (bound : List String) (t : Term) :
    (t.respell f).freeOccurrences (bound.map f) = (t.freeOccurrences bound).map f := by
  induction t using binderInduction generalizing bound with
  | atom a =>
    have hmem : (bound.map f).contains (f a) = bound.contains a := by
      rw [Bool.eq_iff_iff, List.contains_iff_mem, List.contains_iff_mem, mem_map_of_inj hf.inj]
    rw [respell_atom, freeOccurrences_atom, freeOccurrences_atom, hf.isVariable, hmem]
    split <;> rfl
  | binder b ih =>
    rw [hf.toTerm, freeOccurrences_binder, freeOccurrences_binder, names, ← List.map_append]
    exact ih _
  | list xs hb ih =>
    rw [respell_list, freeOccurrences_list _ hb, freeOccurrences_list _ (hf.binder?_list hb),
      List.map_flatMap, List.flatMap_map, List.flatMap_def, List.flatMap_def,
      List.map_congr_left fun x hx => ih x hx bound]

theorem freeVariables (t : Term) : (t.respell f).freeVariables = t.freeVariables.map f := by
  have hfree := hf.freeOccurrences [] t
  rw [List.map_nil] at hfree
  rw [Term.freeVariables, hfree, eraseDups_map_of_inj hf.inj, Term.freeVariables]

theorem universalsOut (t : Term) : (t.respell f).universalsOut = t.universalsOut.respell f := by
  match t with
  | .atom a => rw [respell_atom, Term.universalsOut, Term.universalsOut, respell_atom]
  | .list xs =>
    have hmap : (xs.map (respell f)).map Term.universalsOut =
        (xs.map Term.universalsOut).map (respell f) := map_congr fun x hx => universalsOut x
    have hview := hf.binder? (list xs)
    rw [respell_list] at hview ⊢
    cases hb : (list xs).binder? with
    | none =>
      rw [universalsOut_list hb, universalsOut_list (hf.binder?_list hb), hmap, respell_list]
    | some b =>
      rw [hb] at hview
      cases hq : b.quantifier with
      | all =>
        rw [universalsOut_of_all hb hq, universalsOut_of_all hview hq]
        exact universalsOut b.body
      | any => rw [universalsOut_of_any hb hq, universalsOut_of_any hview hq, hmap, respell_list]
termination_by sizeOf t
decreasing_by
  · decreasing_tactic
  · exact sizeOf_body_lt hb

/-! ## arrows and negations -/

/-- a step that rewrites the applications of one operator to two formulas and nothing else -/
theorem pair {o : Operator} {g : Term → Term} {h : Term → Term → Term}
    (hpair : ∀ a b, g (Term.apply o [a, b]) = h a b)
    (hother : ∀ t, (∀ a b, t ≠ Term.apply o [a, b]) → g t = t)
    (hh : ∀ a b, h (a.respell f) (b.respell f) = (h a b).respell f) (t : Term) :
    g (t.respell f) = (g t).respell f := by
  by_cases hc : ∃ a b, t = Term.apply o [a, b]
  · obtain ⟨a, b, rfl⟩ := hc
    rw [hf.apply, List.map_cons, List.map_singleton, hpair, hpair, hh]
  · rw [hother t fun a b he => hc ⟨a, b, he⟩, hother]
    intro a b he
    exact hc (hf.exists_of_eq_pair he)

theorem equivalenceOut (t : Term) : (t.respell f).equivalenceOut = t.equivalenceOut.respell f := by
  refine hf.pair (o := .iff) (h := fun a b => .conj [implies a b, implies b a]) (fun a b => rfl)
    (fun u hu => ?_) (fun a b => ?_) t
  · unfold Term.equivalenceOut
    split
    · exact absurd rfl (hu _ _)
    · rfl
  · simp only [hf.conj, implies, hf.apply, List.map_cons, List.map_nil]

theorem implicationOut (t : Term) : (t.respell f).implicationOut = t.implicationOut.respell f := by
  refine hf.pair (o := .implies) (h := fun a b => .disj [a.neg, b]) (fun a b => rfl)
    (fun u hu => ?_) (fun a b => ?_) t
  · unfold Term.implicationOut
    split
    · exact absurd rfl (hu _ _)
    · rfl
  · simp only [hf.disj, hf.neg, List.map_cons, List.map_nil]

theorem equivalencesOut (t : Term) :
    (t.respell f).equivalencesOut = t.equivalencesOut.respell f := by
  match t with
  | .atom a => rw [respell_atom, Term.equivalencesOut, Term.equivalencesOut, respell_atom]
  | .list xs =>
    rw [respell_list, equivalencesOut_list, equivalencesOut_list,
      map_congr fun x _ => equivalencesOut x, ← respell_list, hf.equivalenceOut]

theorem implicationsOut (t : Term) :
    (t.respell f).implicationsOut = t.implicationsOut.respell f := by
  match t with
  | .atom a => rw [respell_atom, Term.implicationsOut, Term.implicationsOut, respell_atom]
  | .list xs =>
    rw [respell_list, implicationsOut_list, implicationsOut_list,
      map_congr fun x _ => implicationsOut x, ← respell_list, hf.implicationOut]

theorem settle (positive : Bool) (t : Term) :
    (t.respell f).settle positive = (t.settle positive).respell f := by
  induction positive, t using Term.settle.induct with
  | case1 a => rw [respell_atom, Term.settle, if_pos rfl, Term.settle, if_pos rfl, respell_atom]
  | case2 positive hp =>
    rw [respell_atom, hf.verum, Term.settle, if_neg hp, if_pos rfl]
    exact (congrArg atom hf.falsum).symm.trans (respell_atom f falseName).symm
  | case3 positive hp hne =>
    rw [respell_atom, hf.falsum, Term.settle, if_neg hp, if_neg hne, if_pos rfl]
    exact (congrArg atom hf.verum).symm.trans (respell_atom f trueName).symm
  | case4 positive a hp htrue hfalse =>
    have htrue' : f a ≠ trueName := fun he => htrue (hf.inj (he.trans hf.verum.symm))
    have hfalse' : f a ≠ falseName := fun he => hfalse (hf.inj (he.trans hf.falsum.symm))
    rw [respell_atom, Term.settle, if_neg hp, if_neg htrue', if_neg hfalse', Term.settle, if_neg hp,
      if_neg htrue, if_neg hfalse, hf.neg, respell_atom]
  | case5 positive t ih =>
    show (t.neg.respell f).settle positive = (t.neg.settle positive).respell f
    rw [hf.neg, settle_neg, settle_neg, ih]
  | case6 items hn ih =>
    rw [respell_list, Term.settle, Term.settle, respell_list, map_congr ih]
    · exact hn
    · intro t he
      obtain ⟨s, he⟩ := hf.exists_of_eq_neg ((respell_list f items).trans (congrArg list he))
      exact hn s (Term.list.inj he)
  | case7 args ih =>
    show ((Term.conj args).respell f).settle false = ((Term.conj args).settle false).respell f
    rw [hf.conj, (settle_conj _).2, (settle_conj _).2, hf.disj, map_congr ih]
  | case8 args ih =>
    show ((Term.disj args).respell f).settle false = ((Term.disj args).settle false).respell f
    rw [hf.disj, (settle_disj _).2, (settle_disj _).2, hf.conj, map_congr ih]
  | case9 entries body ih =>
    show ((Term.apply (.quant .all) [entries, body]).respell f).settle false = _
    rw [hf.apply]
    show (list [.atom "forall", entries.respell f, body.respell f]).settle false = _
    rw [Term.settle, Term.settle, ih]
    exact (hf.apply (.quant .any) [entries, body.settle false]).symm
  | case10 entries body ih =>
    show ((Term.apply (.quant .any) [entries, body]).respell f).settle false = _
    rw [hf.apply]
    show (list [.atom "exists", entries.respell f, body.respell f]).settle false = _
    rw [Term.settle, Term.settle, ih]
    exact (hf.apply (.quant .all) [entries, body.settle false]).symm
  | case11 items h1 h2 h3 h4 h5 =>
    have hself : (list items).settle false = (list items).neg := by rw [Term.settle] <;> assumption
    rw [hself, hf.neg, respell_list, Term.settle]
    · intro t he
      obtain ⟨s, he⟩ := hf.exists_of_eq_neg ((respell_list f items).trans (congrArg list he))
      exact h1 s (Term.list.inj he)
    · intro args he
      obtain ⟨args, rfl, _⟩ := hf.exists_of_map_eq (o := .conj) he
      exact h2 args rfl
    · intro args he
      obtain ⟨args, rfl, _⟩ := hf.exists_of_map_eq (o := .disj) he
      exact h3 args rfl
    · intro entries body he
      obtain ⟨x, y, he⟩ := hf.exists_of_eq_pair (o := .quant .all)
        ((respell_list f items).trans (congrArg list he))
      exact h4 x y (Term.list.inj he)
    · intro entries body he
      obtain ⟨x, y, he⟩ := hf.exists_of_eq_pair (o := .quant .any)
        ((respell_list f items).trans (congrArg list he))
      exact h5 x y (Term.list.inj he)

theorem negationsIn (t : Term) : (t.respell f).negationsIn = t.negationsIn.respell f := by
  have hpush : ∀ u : Term, (u.respell f).pushNegations = u.pushNegations.respell f := hf.settle true
  induction t using Term.negationsIn.induct with
  | case1 t hfixed =>
    rw [negationsIn_of_eq hfixed, negationsIn_of_eq (by rw [hpush, hfixed])]
  | case2 t hchanged ih =>
    rw [Term.negationsIn, hpush, if_neg fun he => hchanged (hf.term_inj he), ih,
      Term.negationsIn.eq_def t, if_neg hchanged]

/-! ## disjunctions -/

/-- an operator's name heads the respelled list exactly if it heads the list -/
theorem parts (o : Operator) (t : Term) :
    (t.respell f).parts o.name = (t.parts o.name).map (respell f) := by
  by_cases ht : ∃ args, t = Term.apply o args
  · obtain ⟨args, rfl⟩ := ht
    rw [hf.apply, Term.apply, Term.apply, parts_app, parts_app]
  · rw [parts_of_ne o.name fun args he => ht ⟨args, he⟩, parts_of_ne, List.map_singleton]
    intro args he
    obtain ⟨args, rfl, _⟩ := hf.exists_of_eq_apply (o := o) he
    exact ht ⟨args, rfl⟩

theorem collapse (o : Operator) (ts : List Term) :
    Term.collapse o.name (ts.map (respell f)) = (Term.collapse o.name ts).respell f := by
  match ts with
  | [] => exact (hf.apply o []).symm
  | [t] => rfl
  | t :: u :: ts => exact (hf.apply o (t :: u :: ts)).symm

/-- what a merged application becomes -/
theorem collapse_parts (o : Operator) (ts : List Term) :
    Term.collapse o.name ((ts.map (respell f)).flatMap (Term.parts o.name)) =
      (Term.collapse o.name (ts.flatMap (Term.parts o.name))).respell f := by
  rw [← hf.collapse, List.map_flatMap, List.flatMap_map, List.flatMap_def, List.flatMap_def,
    List.map_congr_left fun t _ => hf.parts o t]

theorem flatten (t : Term) : (t.respell f).flatten = t.flatten.respell f := by
  induction t using Term.flatten.induct with
  | case1 a => rw [respell_atom, Term.flatten, Term.flatten, respell_atom]
  | case2 args ih =>
    show ((Term.conj args).respell f).flatten = (Term.conj args).flatten.respell f
    rw [hf.conj, flatten_conj, flatten_conj, map_congr ih]
    exact hf.collapse_parts .conj _
  | case3 args ih =>
    show ((Term.disj args).respell f).flatten = (Term.disj args).flatten.respell f
    rw [hf.disj, flatten_disj, flatten_disj, map_congr ih]
    exact hf.collapse_parts .disj _
  | case4 items hconj hdisj ih =>
    rw [respell_list, Term.flatten, Term.flatten, map_congr ih, respell_list]
    · exact hconj
    · exact hdisj
    · intro args he
      obtain ⟨args, rfl, _⟩ := hf.exists_of_map_eq (o := .conj) he
      exact hconj args rfl
    · intro args he
      obtain ⟨args, rfl, _⟩ := hf.exists_of_map_eq (o := .disj) he
      exact hdisj args rfl

theorem conjuncts? (t : Term) :
    (t.respell f).conjuncts? = t.conjuncts?.map (List.map (respell f)) := by
  cases ht : t.conjuncts? with
  | some cs =>
    rw [eq_conj_of_conjuncts? ht, hf.conj]
    rfl
  | none =>
    rw [Option.map_none, Option.eq_none_iff_forall_ne_some]
    intro cs hcs
    obtain ⟨args, rfl, _⟩ := hf.exists_of_eq_apply (o := .conj) (eq_conj_of_conjuncts? hcs)
    cases ht

theorem distributeFrom (before ts : List Term) :
    Term.distributeFrom (before.map (respell f)) (ts.map (respell f)) =
      (Term.distributeFrom before ts).map (respell f) := by
  induction ts generalizing before with
  | nil => rfl
  | cons t after ih =>
    rw [List.map_cons, Term.distributeFrom, Term.distributeFrom, hf.conjuncts?]
    cases t.conjuncts? with
    | some cs =>
      refine congrArg some ?_
      rw [hf.conj, List.map_map, List.map_map]
      refine congrArg Term.conj (List.map_congr_left fun c _ => ?_)
      simp only [Function.comp_apply, hf.disj, List.map_append, List.map_cons]
    | none =>
      have hih := ih (before ++ [t])
      rwa [List.map_append, List.map_singleton] at hih

theorem distribute (t : Term) : (t.respell f).distribute = t.distribute.respell f := by
  induction t using Term.distribute.induct with
  | case1 a => rw [respell_atom, Term.distribute, Term.distribute, respell_atom]
  | case2 args ih =>
    show ((Term.conj args).respell f).distribute = (Term.conj args).distribute.respell f
    rw [hf.conj, distribute_conj, distribute_conj, map_congr ih, hf.conj]
  | case3 args ih =>
    show ((Term.disj args).respell f).distribute = (Term.disj args).distribute.respell f
    have hfrom := hf.distributeFrom [] (args.map Term.distribute)
    rw [List.map_nil] at hfrom
    rw [hf.disj, distribute_disj, distribute_disj, map_congr ih, distributeParts, distributeParts,
      hfrom, ← hf.disj]
    cases Term.distributeFrom [] (args.map Term.distribute) <;> rfl
  | case4 items hconj hdisj =>
    rw [respell_list, Term.distribute, Term.distribute, respell_list]
    · exact hconj
    · exact hdisj
    · intro args he
      obtain ⟨args, rfl, _⟩ := hf.exists_of_map_eq (o := .conj) he
      exact hconj args rfl
    · intro args he
      obtain ⟨args, rfl, _⟩ := hf.exists_of_map_eq (o := .disj) he
      exact hdisj args rfl

theorem clauseRound (t : Term) : (t.respell f).clauseRound = t.clauseRound.respell f := by
  rw [Term.clauseRound, hf.distribute, hf.flatten, Term.clauseRound]

theorem clauseRounds (t : Term) : (t.respell f).clauseRounds = t.clauseRounds.respell f := by
  induction t using Term.clauseRounds.induct with
  | case1 t hfixed =>
    rw [clauseRounds_of_eq hfixed, clauseRounds_of_eq (by rw [hf.clauseRound, hfixed])]
  | case2 t hchanged ih =>
    rw [Term.clauseRounds, hf.clauseRound, if_neg fun he => hchanged (hf.term_inj he), ih,
      Term.clauseRounds.eq_def t, if_neg hchanged]

theorem disjunctionsIn (t : Term) : (t.respell f).disjunctionsIn = t.disjunctionsIn.respell f := by
  rw [Term.disjunctionsIn, hf.flatten, hf.clauseRounds, Term.disjunctionsIn]

/-! ## clauses -/

theorem operands (o : Operator) (t : Term) :
    (t.respell f).operands o = (t.operands o).map (respell f) := by
  rw [Term.operands, Term.operands, hf.operator?, args]
  split <;> rfl

end Respelling

/-- a clause with every name spelled another way -/
def Clause.respell (f : String → String) (c : Clause) : Clause :=
  ⟨c.negative.map (Term.respell f), c.positive.map (Term.respell f)⟩

theorem Clause.add_of_ne (c : Clause) {t : Term} (hneg : ∀ u : Term, t ≠ u.neg)
    (hfalsum : t ≠ .falsum) : c.add t = { c with positive := Distinct.add c.positive t } := by
  unfold add
  split
  · exact absurd rfl (hneg _)
  · exact absurd rfl hfalsum
  · rfl

namespace Respelling

open Term

variable {f : String → String} (hf : Respelling f)

include hf

theorem term_verum : Term.verum.respell f = .verum := (respell_atom f _).trans (congrArg _ hf.verum)

theorem term_falsum : Term.falsum.respell f = .falsum :=
  (respell_atom f _).trans (congrArg _ hf.falsum)

theorem clause_add (c : Clause) (t : Term) :
    (c.respell f).add (t.respell f) = (c.add t).respell f := by
  by_cases hneg : ∃ u : Term, t = u.neg
  · obtain ⟨u, rfl⟩ := hneg
    rw [hf.neg]
    exact congrArg (Clause.mk · _) (Distinct.add_map hf.term_inj _ _)
  · by_cases hfalsum : t = .falsum
    · rw [hfalsum, hf.term_falsum]
      refine congrArg (Clause.mk · _) (Eq.trans ?_ (Distinct.add_map hf.term_inj _ .verum))
      rw [hf.term_verum]
      rfl
    · rw [c.add_of_ne (fun u he => hneg ⟨u, he⟩) hfalsum, Clause.add_of_ne]
      · exact congrArg (Clause.mk _) (Distinct.add_map hf.term_inj _ _)
      · exact fun u he => hneg (hf.exists_of_eq_neg he)
      · exact fun he => hfalsum (hf.term_inj (he.trans hf.term_falsum.symm))

theorem ofLiterals (ts : List Term) :
    Clause.ofLiterals (ts.map (respell f)) = (Clause.ofLiterals ts).respell f := by
  have hfold : ∀ c : Clause,
      (ts.map (respell f)).foldl Clause.add (c.respell f) = (ts.foldl Clause.add c).respell f := by
    induction ts with
    | nil => exact fun c => rfl
    | cons t ts ih =>
      intro c
      rw [List.map_cons, List.foldl_cons, List.foldl_cons, hf.clause_add, ih]
  exact hfold .empty

theorem clauses (t : Term) : (t.respell f).clauses = t.clauses.map (Clause.respell f) := by
  unfold Term.clauses
  rw [hf.operands]
  cases t.operands .conj with
  | nil => 
    refine congrArg (· :: []) (Eq.trans ?_ (hf.ofLiterals [.verum]))
    rw [List.map_singleton, hf.term_verum]
  | cons c cs =>
    simp only [List.map_cons, List.map_map, hf.operands, hf.ofLiterals]
    refine congrArg (_ :: ·) (List.map_congr_left fun d _ => ?_)
    simp only [Function.comp_apply, hf.operands, hf.ofLiterals]

end Respelling

end OntologyPrep
