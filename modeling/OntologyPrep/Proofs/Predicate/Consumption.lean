import OntologyPrep.Proofs.Meaning.Reading
import OntologyPrep.Proofs.Predicate.Sign

/-!
# Giving a variable its value is sound

Where a name is free, or first bound by a quantified formula that speaks of all its values, a formula
implies the formula with a ground value for the name (`Term.models_assign`).  What the other names are
in the formula does not change (`Term.speaksOfAll_assign`).
-/

namespace OntologyPrep.Term

universe u

variable {name : String} {value : Term} {f : Fragment}

/-! ## formulas and what they bind -/

theorem assignBound?_plain {t : Term} (ht : t.Plain) : assignBound? name value t = none := by
  induction t using binderInduction with
  | atom a => rw [assignBound?]
  | binder b _ => exact absurd rfl (ht.head_ne (.quant b.quantifier))
  | list xs hb ih =>
    rw [assignBound?, hb, Option.filter_none,
      assignBoundIn?_eq_none.mpr fun x hx => ih x hx (ht.of_mem hx)]
    rfl

theorem quantifiersOf_plain {t : Term} (ht : t.Plain) (sign : Sign) :
    t.quantifiersOf name sign = [] := by
  induction t using binderInduction with
  | atom a => rw [quantifiersOf]
  | binder b _ => exact absurd rfl (ht.head_ne (.quant b.quantifier))
  | list xs hb ih =>
    have hparts : ∀ x ∈ xs, x.quantifiersOf name sign = [] := fun x hx => ih x hx (ht.of_mem hx)
    cases xs with
    | nil => rw [quantifiersOf] <;> simp
    | cons x args =>
      cases x with
      | list ys =>
        rw [quantifiersOf, List.flatMap_eq_nil_iff]
        · exact hparts
        all_goals simp
      | atom a =>
        have hq : Name.isQuantifier a = false := by
          cases hq : Name.isQuantifier a with
          | false => rfl
          | true =>
            have hplain := ht.of_mem List.mem_cons_self a (by simp)
            rw [Name.isOperator_of_isQuantifier hq] at hplain
            cases hplain
        show (app a args).quantifiersOf name sign = []
        rw [quantifiersOf_app args (ht.head_ne .neg) (ht.head_ne .implies) (ht.head_ne .iff) hq,
          List.flatMap_eq_nil_iff]
        exact fun y hy => hparts y (List.mem_cons_of_mem _ hy)

theorem IsBasic.plain {t : Term} (ht : t.IsBasic) : t.Plain := by
  rcases ht with ht | rfl
  · exact ht.2
  · intro a ha
    rw [verum, atoms_atom, List.mem_singleton] at ha
    rw [ha]
    decide

/-- something is taken of a formula exactly if a quantified formula in it binds the name -/
theorem assignBound?_eq_none_iff {t : Term} (ht : t.IsFormula IsBasic f) (sign : Sign) :
    assignBound? name value t = none ↔ t.quantifiersOf name sign = [] := by
  induction ht generalizing sign with
  | atomic h => exact iff_of_true (assignBound?_plain h.plain) (quantifiersOf_plain h.plain sign)
  | literal h =>
    rw [quantifiersOf_neg, neg, apply, assignBound?_app (by decide), Option.map_eq_none_iff,
      assignBoundIn?_eq_none, List.forall_mem_singleton]
    exact iff_of_true (assignBound?_plain h.plain) (quantifiersOf_plain h.plain _)
  | conj _ ih =>
    rw [quantifiersOf_conj, conj, apply, assignBound?_app (by decide), Option.map_eq_none_iff,
      assignBoundIn?_eq_none, List.flatMap_eq_nil_iff]
    exact forall₂_congr fun x hx => ih x hx sign
  | disj _ ih =>
    rw [quantifiersOf_disj, disj, apply, assignBound?_app (by decide), Option.map_eq_none_iff,
      assignBoundIn?_eq_none, List.flatMap_eq_nil_iff]
    exact forall₂_congr fun x hx => ih x hx sign
  | neg _ _ ih =>
    rw [quantifiersOf_neg, neg, apply, assignBound?_app (by decide), Option.map_eq_none_iff,
      assignBoundIn?_eq_none, List.forall_mem_singleton]
    exact ih _
  | implies _ _ _ ihs iht =>
    rw [quantifiersOf_implies, implies, apply, assignBound?_app (by decide),
      Option.map_eq_none_iff, assignBoundIn?_eq_none, List.forall_mem_cons,
      List.forall_mem_singleton, List.append_eq_nil_iff]
    exact and_congr (ihs _) (iht _)
  | iff _ _ _ ihs iht =>
    rw [quantifiersOf_iff, iff, apply, assignBound?_app (by decide),
      Option.map_eq_none_iff, assignBoundIn?_eq_none, List.forall_mem_cons,
      List.forall_mem_singleton, List.append_eq_nil_iff]
    exact and_congr (ihs _) (iht _)
  | @quantified q names body _ hnames _ ih =>
    rw [quantifiersOf_quantified]
    by_cases hn : name ∈ names
    · rw [assignBound?_quantified_of_mem q body hn, if_pos hn]
      simp
    · rw [assignBound?_quantified_of_not_mem q body hnames hn, if_neg hn, Option.map_eq_none_iff,
        List.nil_append]
      exact ih sign

/-- the first quantified formula of a list is that of the first element with one -/
theorem head?_flatMap_quantifiersOf {before after : List Term} {x x' : Term} (sign : Sign)
    (hform : ∀ y ∈ before ++ x :: after, y.IsFormula IsBasic f)
    (hx : assignBound? name value x = some x')
    (hbefore : ∀ y ∈ before, assignBound? name value y = none) :
    ((before ++ x :: after).flatMap (quantifiersOf name sign)).head? =
      (x.quantifiersOf name sign).head? := by
  have hnil : before.flatMap (quantifiersOf name sign) = [] := by
    rw [List.flatMap_eq_nil_iff]
    exact fun y hy => (assignBound?_eq_none_iff (hform y (by simp [hy])) sign).mp (hbefore y hy)
  have hne : x.quantifiersOf name sign ≠ [] := by
    intro h
    rw [(assignBound?_eq_none_iff (hform x (by simp)) sign).mpr h] at hx
    cases hx
  obtain ⟨b, hb⟩ := Option.isSome_iff_exists.mp (List.isSome_head?.mpr hne)
  rw [List.flatMap_append, hnil, List.nil_append, List.flatMap_cons, List.head?_append, hb]
  rfl

/-- what is taken in two formulas is taken in the second one if nothing in the first one binds the
name -/
theorem of_assignBoundIn?_pair {s t : Term} {xs : List Term} (hs : s.IsFormula IsBasic f)
    (h : assignBoundIn? name value [s, t] = some xs) (sign : Sign) :
    (∃ s', assignBound? name value s = some s' ∧ xs = [s', t]) ∨
      ∃ t', assignBound? name value t = some t' ∧ s.quantifiersOf name sign = [] ∧ xs = [s, t'] := by
  cases hx : assignBound? name value s with
  | some s' =>
    rw [assignBoundIn?_cons_of_some hx] at h
    cases h
    exact .inl ⟨s', rfl, rfl⟩
  | none =>
    rw [assignBoundIn?_cons_of_none hx] at h
    obtain ⟨ys, hys, rfl⟩ := Option.map_eq_some_iff.mp h
    cases hy : assignBound? name value t with
    | none =>
      rw [assignBoundIn?_cons_of_none hy, assignBoundIn?] at hys
      cases hys
    | some t' =>
      rw [assignBoundIn?_cons_of_some hy] at hys
      cases hys
      exact .inr ⟨t', rfl, (assignBound?_eq_none_iff hs sign).mp hx, rfl⟩

/-! ## what may come in the place of a formula -/

variable {D : Type u}

/-- the second formula is true where the first one is -/
def Implies (R : Reading D) (s t : Term) : Prop := ∀ v, s.Truth R.Says v → t.Truth R.Says v

/-- what may come in the place of a formula at a place of the sign -/
def Follows (R : Reading D) : Sign → Term → Term → Prop
  | .positive, t, t' => Implies R t t'
  | .negative, t, t' => Implies R t' t
  | .both, t, t' => Implies R t t' ∧ Implies R t' t

variable {R : Reading D} {sign : Sign} {t t' : Term}

theorem Follows.mono {C : Term → Term} (hC : ∀ {a b}, Implies R a b → Implies R (C a) (C b))
    (h : Follows R sign t t') : Follows R sign (C t) (C t') := by
  cases sign with
  | positive => exact hC h
  | negative => exact hC h
  | both => exact h.imp hC hC

theorem Follows.anti {C : Term → Term} (hC : ∀ {a b}, Implies R a b → Implies R (C b) (C a))
    (h : Follows R sign.flip t t') : Follows R sign (C t) (C t') := by
  cases sign with
  | positive => exact hC h
  | negative => exact hC h
  | both => exact h.symm.imp hC hC

theorem Follows.neg (h : Follows R sign.flip t t') : Follows R sign t.neg t'.neg := by
  refine h.anti (C := Term.neg) fun hab v hv => ?_
  rw [truth_neg] at hv ⊢
  exact fun ha => hv (hab v ha)

theorem Follows.implies_left (h : Follows R sign.flip t t') (s : Term) :
    Follows R sign (.implies t s) (.implies t' s) := by
  refine h.anti (C := fun x => .implies x s) fun hab v hv => ?_
  rw [truth_implies] at hv ⊢
  exact fun ha => hv (hab v ha)

theorem Follows.implies_right (h : Follows R sign t t') (s : Term) :
    Follows R sign (.implies s t) (.implies s t') := by
  refine h.mono (C := .implies s) fun hab v hv => ?_
  rw [truth_implies] at hv ⊢
  exact fun hs => hab v (hv hs)

theorem Follows.of_iff (h : ∀ v, t.Truth R.Says v ↔ t'.Truth R.Says v) : Follows R sign t t' := by
  cases sign with
  | positive => exact fun v => (h v).mp
  | negative => exact fun v => (h v).mpr
  | both => exact ⟨fun v => (h v).mp, fun v => (h v).mpr⟩

theorem Follows.iff_left (h : Follows R .both t t') (s : Term) :
    Follows R sign (.iff t s) (.iff t' s) := by
  refine .of_iff fun v => ?_
  rw [truth_iff, truth_iff]
  exact iff_congr ⟨h.1 v, h.2 v⟩ Iff.rfl

theorem Follows.iff_right (h : Follows R .both t t') (s : Term) :
    Follows R sign (.iff s t) (.iff s t') := by
  refine .of_iff fun v => ?_
  rw [truth_iff, truth_iff]
  exact iff_congr Iff.rfl ⟨h.1 v, h.2 v⟩

theorem Follows.conj (h : Follows R sign t t') (before after : List Term) :
    Follows R sign (.conj (before ++ t :: after)) (.conj (before ++ t' :: after)) := by
  refine h.mono (C := fun x => .conj (before ++ x :: after)) fun hab v hv => ?_
  rw [truth_conj, List.forall_mem_append, List.forall_mem_cons] at hv ⊢
  exact ⟨hv.1, hab v hv.2.1, hv.2.2⟩

theorem Follows.disj (h : Follows R sign t t') (before after : List Term) :
    Follows R sign (.disj (before ++ t :: after)) (.disj (before ++ t' :: after)) := by
  refine h.mono (C := fun x => .disj (before ++ x :: after)) fun {a b} hab v hv => ?_
  rw [truth_disj] at hv ⊢
  obtain ⟨x, hx, htrue⟩ := hv
  rcases List.mem_append.mp hx with hx | hx
  · exact ⟨x, by simp [hx], htrue⟩
  · rcases List.mem_cons.mp hx with rfl | hx
    · exact ⟨b, by simp, hab v htrue⟩
    · exact ⟨x, by simp [hx], htrue⟩

theorem Follows.quantified (h : Follows R sign t t') (q : Quantifier) (names : List String) :
    Follows R sign (.quantified q.name names t) (.quantified q.name names t') := by
  refine h.mono (C := .quantified q.name names) fun hab v hv => ?_
  cases q with
  | all =>
    rw [truth_all] at hv ⊢
    exact fun w hw => hab w (hv w hw)
  | any =>
    rw [truth_any] at hv ⊢
    obtain ⟨w, hw, htrue⟩ := hv
    exact ⟨w, hw, hab w htrue⟩

/-! ## the formula that is taken -/

/-- the names that are left are bound, if there are any -/
theorem binder_assign_cases (q : Quantifier) (names : List String) (body : Term) :
    names.filter (· ≠ name) = [] ∧
        (Binder.mk q (.list (names.map atom)) body).assign name value = body.substitute name value ∨
      (Binder.mk q (.list (names.map atom)) body).assign name value =
        .quantified q.name (names.filter (· ≠ name)) (body.substitute name value) := by
  unfold Binder.assign
  rw [names_quantified]
  split
  · next h => exact .inl ⟨h, rfl⟩
  · exact .inr rfl

theorem truth_binder_assign (q : Quantifier) (names : List String) (body : Term) (v : Valuation D) :
    ((Binder.mk q (.list (names.map atom)) body).assign name value).Truth R.Says v ↔
      (Term.quantified q.name (names.filter (· ≠ name)) (body.substitute name value)).Truth
        R.Says v := by
  rcases @binder_assign_cases name value q names body with ⟨hnil, h⟩ | h
  · rw [h, hnil]
    exact (truth_quantified_nil q _).symm
  · rw [h]

/-- a formula that speaks of all values of a name implies what it says of one value -/
theorem follows_binder_assign {q : Quantifier} {names : List String} {body : Term}
    (hbody : body.IsFormula IsBasic f) (hvar : Name.isVariable name = true) (hvalue : value.Plain)
    (hground : value.containsVariable = false) (hn : name ∈ names)
    (hall : sign.speaksOfAll q = true) : Follows R sign (.quantified q.name names body)
      ((Binder.mk q (.list (names.map atom)) body).assign name value) := by
  have hagree : ∀ {v w : Valuation D}, v.AgreeOff (names.filter (· ≠ name)) w →
      v.AgreeOff names (Function.update w name (R.denote w value)) := by
    intro v w hw a ha
    have hne : a ≠ name := by
      rintro rfl
      exact ha hn
    rw [Function.update_of_ne hne]
    exact hw a fun hmem => ha (List.mem_filter.mp hmem).1
  have hsub := fun w => truth_substitute_ground (R := R) hbody hvar hvalue hground w
  cases q with
  | all =>
    obtain rfl : sign = .positive := of_decide_eq_true hall
    intro v hv
    rw [truth_binder_assign, truth_all]
    exact fun w hw => (hsub w).mpr ((truth_all _ _).mp hv _ (hagree hw))
  | any =>
    obtain rfl : sign = .negative := of_decide_eq_true hall
    intro v hv
    rw [truth_binder_assign, truth_any] at hv
    obtain ⟨w, hw, htrue⟩ := hv
    exact (truth_any _ _).mpr ⟨_, hagree hw, (hsub w).mp htrue⟩

/-- a quantified formula in a formula has given up the name for the value; the pair is its quantifier
with the sign of its place -/
inductive Takes (name : String) (value : Term) :
    Sign → Quantifier × Sign → Term → Term → Prop where
  | here {sign : Sign} {q : Quantifier} {names : List String} {body : Term} : name ∈ names →
    (∀ n ∈ names, Name.isVariable n = true) → body.IsFormula IsBasic .full →
    Takes name value sign (q, sign) (.quantified q.name names body)
      ((Binder.mk q (.list (names.map atom)) body).assign name value)
  | conj {sign : Sign} {b : Quantifier × Sign} {before after : List Term} {x x' : Term} :
    (∀ y ∈ before ++ after, y.IsFormula IsBasic .full) → Takes name value sign b x x' →
    Takes name value sign b (.conj (before ++ x :: after)) (.conj (before ++ x' :: after))
  | disj {sign : Sign} {b : Quantifier × Sign} {before after : List Term} {x x' : Term} :
    (∀ y ∈ before ++ after, y.IsFormula IsBasic .full) → Takes name value sign b x x' →
    Takes name value sign b (.disj (before ++ x :: after)) (.disj (before ++ x' :: after))
  | neg {sign : Sign} {b : Quantifier × Sign} {t t' : Term} :
    Takes name value sign.flip b t t' → Takes name value sign b t.neg t'.neg
  | antecedent {sign : Sign} {b : Quantifier × Sign} {s s' t : Term} :
    t.IsFormula IsBasic .full → Takes name value sign.flip b s s' →
    Takes name value sign b (.implies s t) (.implies s' t)
  | consequent {sign : Sign} {b : Quantifier × Sign} {s t t' : Term} :
    s.IsFormula IsBasic .full → Takes name value sign b t t' →
    Takes name value sign b (.implies s t) (.implies s t')
  | left {sign : Sign} {b : Quantifier × Sign} {s s' t : Term} :
    t.IsFormula IsBasic .full → Takes name value .both b s s' →
    Takes name value sign b (.iff s t) (.iff s' t)
  | right {sign : Sign} {b : Quantifier × Sign} {s t t' : Term} :
    s.IsFormula IsBasic .full → Takes name value .both b t t' →
    Takes name value sign b (.iff s t) (.iff s t')
  | within {sign : Sign} {b : Quantifier × Sign} {q : Quantifier} {names : List String}
    {body body' : Term} : (∀ n ∈ names, Name.isVariable n = true) →
    Takes name value sign b body body' →
    Takes name value sign b (.quantified q.name names body) (.quantified q.name names body')

/-- the first quantified formula that binds the name is taken -/
theorem exists_takes {t t' : Term} (ht : t.IsFormula IsBasic .full)
    (h : assignBound? name value t = some t') (sign : Sign) :
    ∃ b, (t.quantifiersOf name sign).head? = some b ∧ Takes name value sign b t t' := by
  induction ht generalizing sign t' with
  | atomic hs =>
    rw [assignBound?_plain hs.plain] at h
    cases h
  | literal hs =>
    rw [Term.neg, apply, assignBound?_app (by decide),
      assignBoundIn?_cons_of_none (assignBound?_plain hs.plain), assignBoundIn?] at h
    cases h
  | conj hargs ih =>
    rw [Term.conj, apply, assignBound?_app (by decide)] at h
    obtain ⟨xs', hxs, rfl⟩ := Option.map_eq_some_iff.mp h
    obtain ⟨before, x, x', after, rfl, rfl, hx, hbefore⟩ := exists_split_of_assignBoundIn? hxs
    obtain ⟨b, hb, htakes⟩ := ih x (by simp) hx sign
    refine ⟨b, ?_, .conj (fun y hy => hargs y ?_) htakes⟩
    · rw [quantifiersOf_conj, head?_flatMap_quantifiersOf sign hargs hx hbefore, hb]
    · rcases List.mem_append.mp hy with hy | hy <;> simp [hy]
  | disj hargs ih =>
    rw [Term.disj, apply, assignBound?_app (by decide)] at h
    obtain ⟨xs', hxs, rfl⟩ := Option.map_eq_some_iff.mp h
    obtain ⟨before, x, x', after, rfl, rfl, hx, hbefore⟩ := exists_split_of_assignBoundIn? hxs
    obtain ⟨b, hb, htakes⟩ := ih x (by simp) hx sign
    refine ⟨b, ?_, .disj (fun y hy => hargs y ?_) htakes⟩
    · rw [quantifiersOf_disj, head?_flatMap_quantifiersOf sign hargs hx hbefore, hb]
    · rcases List.mem_append.mp hy with hy | hy <;> simp [hy]
  | @neg t _ _ ih =>
    rw [Term.neg, apply, assignBound?_app (by decide)] at h
    obtain ⟨xs', hxs, rfl⟩ := Option.map_eq_some_iff.mp h
    cases hx : assignBound? name value t with
    | none =>
      rw [assignBoundIn?_cons_of_none hx, assignBoundIn?] at hxs
      cases hxs
    | some t' =>
      rw [assignBoundIn?_cons_of_some hx] at hxs
      cases hxs
      obtain ⟨b, hb, htakes⟩ := ih hx sign.flip
      exact ⟨b, by rw [quantifiersOf_neg, hb], .neg htakes⟩
  | @implies s t _ hs ht ihs iht =>
    rw [quantifiersOf_implies]
    rw [Term.implies, apply, assignBound?_app (by decide)] at h
    obtain ⟨xs', hxs, rfl⟩ := Option.map_eq_some_iff.mp h
    rcases of_assignBoundIn?_pair hs hxs sign.flip with ⟨s', hx, rfl⟩ | ⟨t', hx, hnil, rfl⟩
    · obtain ⟨b, hb, htakes⟩ := ihs hx sign.flip
      exact ⟨b, by rw [List.head?_append, hb, Option.some_or], .antecedent ht htakes⟩
    · obtain ⟨b, hb, htakes⟩ := iht hx sign
      exact ⟨b, by rw [hnil, List.nil_append, hb], .consequent hs htakes⟩
  | @iff s t _ hs ht ihs iht =>
    rw [quantifiersOf_iff]
    rw [Term.iff, apply, assignBound?_app (by decide)] at h
    obtain ⟨xs', hxs, rfl⟩ := Option.map_eq_some_iff.mp h
    rcases of_assignBoundIn?_pair hs hxs .both with ⟨s', hx, rfl⟩ | ⟨t', hx, hnil, rfl⟩
    · obtain ⟨b, hb, htakes⟩ := ihs hx .both
      exact ⟨b, by rw [List.head?_append, hb, Option.some_or], .left ht htakes⟩
    · obtain ⟨b, hb, htakes⟩ := iht hx .both
      exact ⟨b, by rw [hnil, List.nil_append, hb], .right hs htakes⟩
  | @quantified q names body _ hnames hbody ih =>
    rw [quantifiersOf_quantified]
    by_cases hn : name ∈ names
    · rw [assignBound?_quantified_of_mem q body hn] at h
      cases h
      exact ⟨(q, sign), by rw [if_pos hn]; rfl, .here hn hnames hbody⟩
    · rw [assignBound?_quantified_of_not_mem q body hnames hn] at h
      obtain ⟨body', hx, rfl⟩ := Option.map_eq_some_iff.mp h
      obtain ⟨b, hb, htakes⟩ := ih hx sign
      exact ⟨b, by rw [if_neg hn, List.nil_append, hb], .within hnames htakes⟩

/-- a formula in which the taken one speaks of all values of the name implies the other one -/
theorem Takes.follows {b : Quantifier × Sign} (h : Takes name value sign b t t')
    (hvar : Name.isVariable name = true) (hvalue : value.Plain)
    (hground : value.containsVariable = false) (hall : b.2.speaksOfAll b.1 = true) :
    Follows R sign t t' := by
  induction h with
  | here hn _ hbody => exact follows_binder_assign hbody hvar hvalue hground hn hall
  | conj _ _ ih => exact (ih hall).conj _ _
  | disj _ _ ih => exact (ih hall).disj _ _
  | neg _ ih => exact (ih hall).neg
  | antecedent _ _ ih => exact (ih hall).implies_left _
  | consequent _ _ ih => exact (ih hall).implies_right _
  | left _ _ ih => exact (ih hall).iff_left _
  | right _ _ ih => exact (ih hall).iff_right _
  | within _ _ ih => exact (ih hall).quantified _ _

/-! ## what is left of the other names -/

section

variable {other : String}

theorem mem_freeVariables_substitute_plain {t : Term} (ht : t.Plain) (hvalue : value.Plain)
    (hground : value.containsVariable = false) (hne : other ≠ name) :
    other ∈ (t.substitute name value).freeVariables ↔ other ∈ t.freeVariables := by
  induction t using binderInduction with
  | atom a =>
    rw [substitute_atom]
    split
    · next he =>
      rw [freeVariables_eq_nil hground, mem_freeVariables_atom, he]
      exact iff_of_false List.not_mem_nil fun h => hne h.2
    · exact Iff.rfl
  | binder b _ => exact absurd rfl (ht.head_ne (.quant b.quantifier))
  | list xs hb ih =>
    have hplain := ht.substitute name hvalue
    rw [substitute_plain ht] at hplain ⊢
    rw [mem_freeVariables_list hplain.binder?_eq_none, mem_freeVariables_list hb, exists_mem_map]
    exact exists_congr fun x => and_congr_right fun hx => ih x hx (ht.of_mem hx)

theorem mem_freeVariables_substitute_ground {t : Term} (ht : t.IsFormula IsBasic f)
    (hvar : Name.isVariable name = true) (hvalue : value.Plain)
    (hground : value.containsVariable = false) (hne : other ≠ name) :
    other ∈ (t.substitute name value).freeVariables ↔ other ∈ t.freeVariables := by
  have happly : ∀ {o : Operator} {args : List Term}, Name.isQuantifier o.name = false →
      Name.isVariable o.name = false →
      (∀ x ∈ args, other ∈ (x.substitute name value).freeVariables ↔ other ∈ x.freeVariables) →
      (other ∈ ((apply o args).substitute name value).freeVariables ↔
        other ∈ (apply o args).freeVariables) := by
    intro o args ho hv h
    rw [substitute_apply hvar ho, apply, apply, mem_freeVariables_app ho hv,
      mem_freeVariables_app ho hv, exists_mem_map]
    exact exists_congr fun x => and_congr_right fun hx => h x hx
  have hatomic : ∀ {s : Term}, s.IsBasic →
      (other ∈ (s.substitute name value).freeVariables ↔ other ∈ s.freeVariables) := fun hs =>
    mem_freeVariables_substitute_plain hs.plain hvalue hground hne
  induction ht with
  | atomic h => exact hatomic h
  | literal h => exact happly (by decide) (by decide) (List.forall_mem_singleton.mpr (hatomic h))
  | conj _ ih => exact happly (by decide) (by decide) ih
  | disj _ ih => exact happly (by decide) (by decide) ih
  | neg _ _ ih => exact happly (by decide) (by decide) (List.forall_mem_singleton.mpr ih)
  | implies _ _ _ ihs iht => exact happly (by decide) (by decide) (by simpa using ⟨ihs, iht⟩)
  | iff _ _ _ ihs iht => exact happly (by decide) (by decide) (by simpa using ⟨ihs, iht⟩)
  | @quantified q names body _ _ _ ih =>
    by_cases hn : name ∈ names
    · rw [substitute_quantified_of_mem q body hn]
    · rw [substitute_quantified_of_not_mem hvar q body hn, mem_freeVariables_quantified,
        mem_freeVariables_quantified]
      exact and_congr_left' ih

theorem quantifiersOf_substitute {t : Term} (ht : t.IsFormula IsBasic f)
    (hvar : Name.isVariable name = true) (hvalue : value.Plain) (sign : Sign) :
    (t.substitute name value).quantifiersOf other sign = t.quantifiersOf other sign := by
  have hatomic : ∀ {s : Term} (sign : Sign), s.IsBasic →
      (s.substitute name value).quantifiersOf other sign = s.quantifiersOf other sign := by
    intro s sign hs
    rw [quantifiersOf_plain (hs.plain.substitute name hvalue), quantifiersOf_plain hs.plain]
  have hparts : ∀ {args : List Term} (sign : Sign), (∀ x ∈ args,
      (x.substitute name value).quantifiersOf other sign = x.quantifiersOf other sign) →
      (args.map fun x => x.substitute name value).flatMap (quantifiersOf other sign) =
        args.flatMap (quantifiersOf other sign) := by
    intro args sign h
    rw [List.flatMap_map, List.flatMap_def, List.flatMap_def, List.map_congr_left h]
  induction ht generalizing sign with
  | atomic h => exact hatomic sign h
  | literal h => rw [substitute_neg hvar, quantifiersOf_neg, quantifiersOf_neg, hatomic _ h]
  | conj _ ih =>
    rw [Term.conj, substitute_apply hvar (by decide), ← Term.conj, ← Term.conj, quantifiersOf_conj,
      quantifiersOf_conj, hparts sign fun x hx => ih x hx sign]
  | disj _ ih =>
    rw [Term.disj, substitute_apply hvar (by decide), ← Term.disj, ← Term.disj, quantifiersOf_disj,
      quantifiersOf_disj, hparts sign fun x hx => ih x hx sign]
  | neg _ _ ih => rw [substitute_neg hvar, quantifiersOf_neg, quantifiersOf_neg, ih]
  | @implies s t _ _ _ ihs iht =>
    rw [Term.implies, substitute_apply hvar (by decide)]
    show (Term.implies _ _).quantifiersOf other sign = (Term.implies s t).quantifiersOf other sign
    rw [quantifiersOf_implies, quantifiersOf_implies, ihs, iht]
  | @iff s t _ _ _ ihs iht =>
    rw [Term.iff, substitute_apply hvar (by decide)]
    show (Term.iff _ _).quantifiersOf other sign = (Term.iff s t).quantifiersOf other sign
    rw [quantifiersOf_iff, quantifiersOf_iff, ihs, iht]
  | @quantified q names body _ _ _ ih =>
    by_cases hn : name ∈ names
    · rw [substitute_quantified_of_mem q body hn]
    · rw [substitute_quantified_of_not_mem hvar q body hn, quantifiersOf_quantified,
        quantifiersOf_quantified, ih]

/-- the other names are free where they were -/
theorem Takes.mem_freeVariables {b : Quantifier × Sign} (h : Takes name value sign b t t')
    (hvar : Name.isVariable name = true) (hvalue : value.Plain)
    (hground : value.containsVariable = false) (hne : other ≠ name) :
    other ∈ t'.freeVariables ↔ other ∈ t.freeVariables := by
  have hparts : ∀ {before after : List Term} {x x' : Term},
      (other ∈ x'.freeVariables ↔ other ∈ x.freeVariables) →
      ((∃ y ∈ before ++ x' :: after, other ∈ y.freeVariables) ↔
        ∃ y ∈ before ++ x :: after, other ∈ y.freeVariables) := by
    intro before after x x' h
    simp only [List.mem_append, List.mem_cons, or_and_right, exists_or, exists_eq_left, h]
  induction h with
  | @here sign q names body _ _ hbody =>
    have hsub := mem_freeVariables_substitute_ground hbody hvar hvalue hground hne
    have hnames : other ∈ names.filter (· ≠ name) ↔ other ∈ names := by simp [hne]
    rw [mem_freeVariables_quantified]
    rcases @binder_assign_cases name value q names body with ⟨hnil, h⟩ | h
    · rw [hnil] at hnames
      rw [h, hsub, ← hnames]
      simp
    · rw [h, mem_freeVariables_quantified, hsub, hnames]
  | conj _ _ ih =>
    rw [mem_freeVariables_conj, mem_freeVariables_conj, hparts ih]
  | disj _ _ ih =>
    rw [mem_freeVariables_disj, mem_freeVariables_disj, hparts ih]
  | neg _ ih =>
    rw [mem_freeVariables_neg, mem_freeVariables_neg]
    exact ih
  | antecedent _ _ ih =>
    rw [mem_freeVariables_implies, mem_freeVariables_implies]
    exact or_congr_left ih
  | consequent _ _ ih =>
    rw [mem_freeVariables_implies, mem_freeVariables_implies]
    exact or_congr_right ih
  | left _ _ ih =>
    rw [mem_freeVariables_iff, mem_freeVariables_iff]
    exact or_congr_left ih
  | right _ _ ih =>
    rw [mem_freeVariables_iff, mem_freeVariables_iff]
    exact or_congr_right ih
  | within _ _ ih =>
    rw [mem_freeVariables_quantified, mem_freeVariables_quantified]
    exact and_congr_left' ih

/-- the other names are bound where they were -/
theorem Takes.quantifiersOf {b : Quantifier × Sign} (h : Takes name value sign b t t')
    (hvar : Name.isVariable name = true) (hvalue : value.Plain) (hne : other ≠ name)
    (sign' : Sign) : t'.quantifiersOf other sign' = t.quantifiersOf other sign' := by
  induction h generalizing sign' with
  | @here sign q names body _ _ hbody =>
    have hsub := @quantifiersOf_substitute name value _ other _ hbody hvar hvalue sign'
    have hnames : other ∈ names.filter (· ≠ name) ↔ other ∈ names := by simp [hne]
    rw [quantifiersOf_quantified]
    rcases @binder_assign_cases name value q names body with ⟨hnil, h⟩ | h
    · rw [hnil] at hnames
      rw [h, hsub, if_neg fun hmem => List.not_mem_nil (hnames.mpr hmem), List.nil_append]
    · rw [h, quantifiersOf_quantified, hsub]
      simp only [hnames]
  | conj _ _ ih => rw [quantifiersOf_conj, quantifiersOf_conj, List.flatMap_append,
      List.flatMap_append, List.flatMap_cons, List.flatMap_cons, ih]
  | disj _ _ ih => rw [quantifiersOf_disj, quantifiersOf_disj, List.flatMap_append,
      List.flatMap_append, List.flatMap_cons, List.flatMap_cons, ih]
  | neg _ ih => rw [quantifiersOf_neg, quantifiersOf_neg, ih]
  | antecedent _ _ ih => rw [quantifiersOf_implies, quantifiersOf_implies, ih]
  | consequent _ _ ih => rw [quantifiersOf_implies, quantifiersOf_implies, ih]
  | left _ _ ih => rw [quantifiersOf_iff, quantifiersOf_iff, ih]
  | right _ _ ih => rw [quantifiersOf_iff, quantifiersOf_iff, ih]
  | within _ _ ih => rw [quantifiersOf_quantified, quantifiersOf_quantified, ih]

theorem Takes.isFormula {b : Quantifier × Sign} (h : Takes name value sign b t t')
    (hvar : Name.isVariable name = true) (hvalue : value.Plain) : t'.IsFormula IsBasic .full := by
  have hparts : ∀ {before after : List Term} {x : Term},
      (∀ y ∈ before ++ after, y.IsFormula IsBasic .full) → x.IsFormula IsBasic .full →
      ∀ y ∈ before ++ x :: after, y.IsFormula IsBasic .full := by
    intro before after x hrest hx y hy
    rcases List.mem_append.mp hy with hy | hy
    · exact hrest y (List.mem_append_left _ hy)
    · rcases List.mem_cons.mp hy with rfl | hy
      · exact hx
      · exact hrest y (List.mem_append_right _ hy)
  induction h with
  | @here sign q names body _ hnames hbody =>
    have hsub := hbody.substitute hvar fun s (hs : s.IsBasic) => hs.substitute hvar hvalue
    rcases @binder_assign_cases name value q names body with ⟨_, h⟩ | h
    · rw [h]
      exact hsub
    · rw [h]
      exact .quantified trivial (fun n hn => hnames n (List.mem_filter.mp hn).1) hsub
  | conj hrest _ ih => exact .conj (hparts hrest ih)
  | disj hrest _ ih => exact .disj (hparts hrest ih)
  | neg _ ih => exact .neg trivial ih
  | antecedent ht _ ih => exact .implies trivial ih ht
  | consequent hs _ ih => exact .implies trivial hs ih
  | left ht _ ih => exact .iff trivial ih ht
  | right hs _ ih => exact .iff trivial hs ih
  | within hnames _ ih => exact .quantified trivial hnames ih

end

/-! ## the value in the place of the variable -/

/-- a variable is replaced where it is free, taken where it is bound, and left alone otherwise -/
theorem assign_cases (ht : t.IsFormula IsBasic .full) :
    name ∈ t.freeVariables ∧ t.assign name value = t.substitute name value ∨
      (name ∉ t.freeVariables ∧ ∃ b, (t.quantifiersOf name .positive).head? = some b ∧
        Takes name value .positive b t (t.assign name value)) ∨
      t.assign name value = t := by
  unfold assign
  split
  · next h => exact .inl ⟨List.contains_iff_mem.mp h, rfl⟩
  · next hfree =>
    cases h : assignBound? name value t with
    | none => exact .inr (.inr rfl)
    | some t' => exact .inr (.inl ⟨by simpa using hfree, exists_takes ht h .positive⟩)

section

variable (ht : t.IsFormula IsBasic .full) (hvar : Name.isVariable name = true)
  (hvalue : value.Plain)

include ht hvar hvalue

theorem isFormula_assign : (t.assign name value).IsFormula IsBasic .full := by
  rcases @assign_cases name value t ht with ⟨_, h⟩ | ⟨_, b, _, h⟩ | h
  · rw [h]
    exact ht.substitute hvar fun s hs => hs.substitute hvar hvalue
  · exact h.isFormula hvar hvalue
  · rw [h]
    exact ht

variable (hground : value.containsVariable = false)

include hground

/-- a formula that speaks of all values of a variable has what it says of one value for a
consequence -/
theorem models_assign (hspeaks : t.speaksOfAll name = true) (h : R.Models t) :
    R.Models (t.assign name value) := by
  rcases @assign_cases name value t ht with ⟨_, he⟩ | ⟨hfree, b, hb, htakes⟩ | he
  · intro v
    rw [he]
    exact (truth_substitute_ground ht hvar hvalue hground v).mpr (h _)
  · rw [speaksOfAll, hb, Bool.or_eq_true, List.contains_iff_mem] at hspeaks
    exact fun v => htakes.follows hvar hvalue hground (hspeaks.resolve_left hfree) v (h v)
  · rw [he]
    exact h

theorem speaksOfAll_assign {other : String} (hne : other ≠ name) :
    (t.assign name value).speaksOfAll other = t.speaksOfAll other := by
  unfold speaksOfAll
  rcases @assign_cases name value t ht with ⟨_, h⟩ | ⟨_, b, _, h⟩ | h
  · rw [h, quantifiersOf_substitute ht hvar hvalue]
    have hfree := mem_freeVariables_substitute_ground ht hvar hvalue hground hne
    simp only [← List.contains_iff_mem] at hfree
    rw [Bool.eq_iff_iff.mpr hfree]
  · rw [h.quantifiersOf hvar hvalue hne]
    have hfree := h.mem_freeVariables hvar hvalue hground hne
    simp only [← List.contains_iff_mem] at hfree
    rw [Bool.eq_iff_iff.mpr hfree]
  · rw [h]

end

end OntologyPrep.Term
