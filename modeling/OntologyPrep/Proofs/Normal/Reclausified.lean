import Mathlib.Data.List.Perm.Subperm
import Mathlib.Data.Set.Function
import OntologyPrep.Proofs.Normal.Proper
import OntologyPrep.Proofs.Normal.Recovery

/-!
# Clauses put into clausal form again

A clause of a formula, written as a formula (`Clause.toTerm`), has one clause: the same with other
variables (`ClausalForm.clauses_toTerm`).

The only thing to do for such a formula is to turn negated truth into falsity (`Clause.settled`), which the
clause counts as negated truth again.  All else finds its work done, and the variables are renamed twice.
-/

namespace OntologyPrep

theorem Name.isVariable_of_kinds {a b : String} (hplain : isPlainVariable a = isPlainVariable b)
    (hrow : isRowVariable a = isRowVariable b) : isVariable a = isVariable b := by
  rw [isVariable, isVariable, hplain, hrow]

namespace Distinct

variable {α : Type} [DecidableEq α]

/-- elements that are all different are put behind the others as they are -/
theorem addAll_of_nodup {xs ys : List α} (h : (xs ++ ys).Nodup) : addAll xs ys = xs ++ ys := by
  induction ys generalizing xs with
  | nil => exact (List.append_nil xs).symm
  | cons y ys ih =>
    have hnew : add xs y = xs ++ [y] :=
      if_neg fun hy => (List.nodup_append.mp h).2.2 y hy y List.mem_cons_self rfl
    have hrest : (xs ++ [y] ++ ys).Nodup := by rwa [List.append_assoc]
    show addAll (add xs y) ys = _
    rw [hnew, ih hrest, List.append_assoc, List.singleton_append]

theorem ofList_of_nodup {xs : List α} (h : xs.Nodup) : ofList xs = xs := addAll_of_nodup h

end Distinct

namespace Term

/-! ## disjunctions of literals -/

section

variable {P : Term → Prop} {t : Term} {ts : List Term}

/-- what goes to the parts of a disjunction goes to those of a single literal, too -/
theorem map_collapse {g : Term → Term} (hg : ∀ args, g (disj args) = disj (args.map g)) :
    g (collapse "or" ts) = collapse "or" (ts.map g) := by
  match ts with
  | [] => exact hg []
  | [_] => rfl
  | x :: y :: ts => exact hg (x :: y :: ts)

theorem collapse_of_ne {op : String} (h : ∀ t, ts ≠ [t]) : collapse op ts = .app op ts := by
  unfold collapse
  split
  · next t => exact absurd rfl (h t)
  · rfl

theorem isDisjunction_collapse (h : ∀ x ∈ ts, x.IsLiteral P) : (collapse "or" ts).IsDisjunction P := by
  match ts with
  | [] => exact .disj (by decide) h
  | [x] => exact .literal (h x List.mem_cons_self)
  | x :: y :: ts => exact .disj (by simp) h

theorem mem_atoms_collapse {a : String} (hv : Name.isVariable a = true) :
    a ∈ (collapse "or" ts).atoms ↔ ∃ x ∈ ts, a ∈ x.atoms := by
  have hhead : a ≠ "or" := Name.ne_operator_of_isVariable hv .disj
  match ts with
  | [] => simp [collapse, app, hhead]
  | [x] => simp [collapse]
  | x :: y :: ts => simp [collapse, app, hhead]

theorem operands_collapse (h : ∀ x ∈ ts, x.operator? ≠ some .disj) :
    (collapse "or" ts).operands .disj = ts := by
  match ts with
  | [] => rfl
  | [x] => exact if_neg (h x List.mem_cons_self)
  | x :: y :: ts => rfl

theorem IsLiteral.arrowsOut (h : t.IsLiteral Nonlogical) : t.arrowsOut = t := by
  cases h with
  | atomic h => exact h.arrowsOut
  | negated h => rw [arrowsOut_neg, h.arrowsOut]

theorem IsLiteral.binders (h : t.IsLiteral Nonlogical) : t.binders = 0 := by
  cases h with
  | atomic h => exact h.binders
  | negated h =>
    refine binders_eq_zero (binder?_app_eq_none _ (by decide)) (List.forall_mem_cons.mpr ⟨?_, ?_⟩)
    · exact (nonlogical_atom _).binders
    · exact List.forall_mem_singleton.mpr h.binders

theorem IsDisjunction.arrowsOut (h : t.IsDisjunction Nonlogical) : t.arrowsOut = t := by
  cases h with
  | literal h => exact h.arrowsOut
  | disj _ h => rw [arrowsOut_disj, map_eq_self fun x hx => (h x hx).arrowsOut]

theorem IsDisjunction.binders (h : t.IsDisjunction Nonlogical) : t.binders = 0 := by
  cases h with
  | literal h => exact h.binders
  | disj _ h =>
    refine binders_eq_zero (binder?_app_eq_none _ (by decide)) (List.forall_mem_cons.mpr ⟨?_, ?_⟩)
    · exact (nonlogical_atom _).binders
    · exact fun x hx => (h x hx).binders

theorem distributeFrom_of_literals (h : ∀ x ∈ ts, x.IsLiteral Nonlogical) (before : List Term) :
    distributeFrom before ts = none := by
  induction ts generalizing before with
  | nil => rfl
  | cons x ts ih =>
    obtain ⟨hx, hts⟩ := List.forall_mem_cons.mp h
    have hnone : x.conjuncts? = none := by
      rw [Option.eq_none_iff_forall_ne_some]
      intro cs hcs
      rw [eq_conj_of_conjuncts? hcs] at hx
      exact hx.operator?_ne (fun _ h => h) .conj (by decide) rfl
    rw [distributeFrom, hnone]
    exact ih hts _

theorem parts_of_literals (h : ∀ x ∈ ts, x.IsLiteral Nonlogical) : ts.flatMap (parts "or") = ts := by
  induction ts with
  | nil => rfl
  | cons x ts ih =>
    obtain ⟨hx, hts⟩ := List.forall_mem_cons.mp h
    have hne : ∀ args, x ≠ .app "or" args := by
      rintro args rfl
      exact hx.operator?_ne (fun _ h => h) .disj (by decide) rfl
    rw [List.flatMap_cons, parts_of_ne "or" hne, ih hts, List.singleton_append]

/-- a disjunction of literals has its disjunctions moved in -/
theorem IsDisjunction.disjunctionsIn (h : t.IsDisjunction Nonlogical) : t.disjunctionsIn = t := by
  refine disjunctionsIn_of_clauseRound ?_
  rw [clauseRound]
  cases h with
  | literal h => rw [h.distribute, h.flatten]
  | @disj args hone h =>
    have hflat : args.map flatten = args := map_eq_self fun x hx => (h x hx).flatten
    have hcollapse : collapse "or" args = .disj args := by
      refine collapse_of_ne ?_
      rintro x rfl
      exact hone rfl
    rw [distribute_disj, map_eq_self fun x hx => (h x hx).distribute, distributeParts,
      distributeFrom_of_literals h, Option.getD_none, flatten_disj, hflat, parts_of_literals h, hcollapse]

end

/-! ## truth and falsity in literals -/

section

variable {t : Term}

/-- truth is negated to falsity, all other atomic formulas but falsity by a negation -/
theorem Plain.settle_false_eq (h : t.Plain) (hne : t ≠ .falsum) :
    t.settle false = if t = .verum then .falsum else t.neg := by
  by_cases hverum : t = .verum
  · rw [if_pos hverum, hverum, settle_false_verum]
  · rw [if_neg hverum]
    match t with
    | .list xs => exact h.nonlogical.settle_false
    | .atom a =>
      rw [settle, if_neg (by decide), if_neg fun he => hverum (congrArg atom he),
        if_neg fun he => hne (congrArg atom he)]

theorem Plain.isProperLiteral_settle_false (h : t.Plain) (hne : t ≠ .falsum) :
    (t.settle false).IsProperLiteral Plain := by
  rw [h.settle_false_eq hne]
  split
  · exact .atomic plain_falsum
  · next hverum => exact .negated h hverum hne

theorem Plain.mem_atoms_settle_false (h : t.Plain) (hne : t ≠ .falsum) {a : String}
    (hv : Name.isVariable a = true) : a ∈ (t.settle false).atoms ↔ a ∈ t.atoms := by
  have hconst : ∀ {b : String}, Name.isVariable b = false → a ≠ b := Name.ne_of_isVariable hv
  rw [h.settle_false_eq hne]
  split
  · next he =>
    rw [he]
    simp [verum, falsum, hconst (b := trueName) (by decide), hconst (b := falseName) (by decide)]
  · simp [neg, apply, app, Name.ne_operator_of_isVariable hv .neg]

theorem IsProperLiteral.settle (h : t.IsProperLiteral Plain) : t.settle true = t := by
  cases h with
  | atomic h => exact h.nonlogical.settle
  | negated h hverum hfalsum => rw [settle_neg, Bool.not_true, h.settle_false_eq hfalsum, if_neg hverum]

/-- a term is done after one round if the round leaves its result as it is -/
theorem negationsIn_of_pushNegations {u : Term} (h : t.pushNegations = u) (hu : u.pushNegations = u) :
    t.negationsIn = u := by
  by_cases hfixed : t.pushNegations = t
  · rw [negationsIn_of_eq hfixed, ← h, hfixed]
  · rw [negationsIn, if_neg hfixed, h, negationsIn_of_eq hu]

end

/-! ## variables of literals -/

section

variable {ρ : String → String} {t u : Term}

theorem atoms_mapVariables (t : Term) (ρ : String → String) :
    (t.mapVariables ρ).atoms = t.atoms.map fun a => if Name.isVariable a then ρ a else a :=
  atoms_respell _ t

/-- the terms are recovered if no two of their variables are renamed alike -/
theorem mapVariables_inj
    (hvar : ∀ a, a ∈ t.atoms ∨ a ∈ u.atoms → Name.isVariable a = true → Name.isVariable (ρ a) = true)
    (hρ : ∀ a ∈ t.atoms, ∀ b ∈ u.atoms, Name.isVariable a = true → Name.isVariable b = true →
      ρ a = ρ b → a = b) (h : t.mapVariables ρ = u.mapVariables ρ) : t = u := by
  refine respell_inj (fun a ha b hb he => ?_) h
  cases hva : Name.isVariable a <;> cases hvb : Name.isVariable b <;>
    simp only [hva, hvb, if_true, Bool.false_eq_true, if_false] at he
  · exact he
  · rw [he, hvar b (.inr hb) hvb] at hva
    cases hva
  · rw [← he, hvar a (.inl ha) hva] at hvb
    cases hvb
  · exact hρ a ha b hb hva hvb he

variable (hvar : ∀ a ∈ t.atoms, Name.isVariable a = true → Name.isVariable (ρ a) = true)

include hvar

theorem Plain.mapVariables (h : t.Plain) : (t.mapVariables ρ).Plain := by
  intro a ha
  rw [atoms_mapVariables] at ha
  obtain ⟨b, hb, rfl⟩ := List.mem_map.mp ha
  split
  · next hv => exact Name.isOperator_of_isVariable (hvar b hb hv)
  · exact h b hb

theorem eq_constant_of_mapVariables {a : String} (ha : Name.isVariable a = false)
    (h : t.mapVariables ρ = .atom a) : t = .atom a := by
  cases t with
  | list xs =>
    rw [mapVariables_list] at h
    cases h
  | atom b =>
    rw [Term.mapVariables, mapAtoms_atom] at h
    split at h
    · next hv =>
      rw [← Term.atom.inj h, hvar b (by simp) hv] at ha
      cases ha
    · exact h

/-- renaming the variables and negating do not depend on each other -/
theorem Plain.settle_false_mapVariables (h : t.Plain) (hne : t ≠ .falsum) :
    (t.settle false).mapVariables ρ = (t.mapVariables ρ).settle false := by
  have hne' : t.mapVariables ρ ≠ .falsum := fun he =>
    hne (eq_constant_of_mapVariables hvar (by decide) he)
  rw [h.settle_false_eq hne, (h.mapVariables hvar).settle_false_eq hne']
  by_cases hverum : t = .verum
  · rw [if_pos hverum, hverum, verum, falsum, mapVariables_constant (by decide),
      mapVariables_constant (by decide), if_pos rfl]
  · have hverum' : t.mapVariables ρ ≠ .verum := fun he =>
      hverum (eq_constant_of_mapVariables hvar (by decide) he)
    rw [if_neg hverum, if_neg hverum']
    exact mapVariables_apply .neg [t] ρ

end

end Term

/-! ## clauses with other variables -/

namespace Clause

/-- the variables that occur in a literal -/
def variableSet (c : Clause) : Set String := {a | Name.isVariable a = true ∧ c.Mentions a}

/-- every variable spelled another way -/
def mapVariables (c : Clause) (ρ : String → String) : Clause :=
  ⟨c.negative.map fun x => x.mapVariables ρ, c.positive.map fun x => x.mapVariables ρ⟩

/-- the second clause has the literals of the first one in their order, its variables renamed one to one
and each to one of its kind -/
structure RenamedBy (ρ : String → String) (c d : Clause) : Prop where
  eq : d = c.mapVariables ρ
  bijOn : Set.BijOn ρ c.variableSet d.variableSet
  row : ∀ a ∈ c.variableSet, Name.isRowVariable (ρ a) = Name.isRowVariable a

variable {c d e : Clause} {ρ σ : String → String}

theorem literals_mapVariables (c : Clause) (ρ : String → String) :
    (c.mapVariables ρ).literals = c.literals.map fun x => x.mapVariables ρ := List.map_append.symm

theorem mem_variableSet {x : Term} (hx : x ∈ c.literals) {a : String} (ha : a ∈ x.atoms)
    (hv : Name.isVariable a = true) : a ∈ c.variableSet := ⟨hv, x, hx, ha⟩

theorem variableSet_mapVariables (hvar : ∀ a ∈ c.variableSet, Name.isVariable (ρ a) = true) :
    (c.mapVariables ρ).variableSet = ρ '' c.variableSet := by
  ext b
  constructor
  · rintro ⟨hv, y, hy, hb⟩
    rw [literals_mapVariables] at hy
    obtain ⟨x, hx, rfl⟩ := List.mem_map.mp hy
    rw [Term.atoms_mapVariables] at hb
    obtain ⟨a, ha, rfl⟩ := List.mem_map.mp hb
    by_cases hva : Name.isVariable a = true
    · exact ⟨a, mem_variableSet hx ha hva, (if_pos hva).symm⟩
    · rw [if_neg hva] at hv
      exact absurd hv hva
  · rintro ⟨a, ha, rfl⟩
    obtain ⟨hva, x, hx, hmem⟩ := ha
    refine ⟨hvar a ⟨hva, x, hx, hmem⟩, x.mapVariables ρ, ?_, ?_⟩
    · rw [literals_mapVariables]
      exact List.mem_map_of_mem hx
    · rw [Term.atoms_mapVariables]
      exact List.mem_map.mpr ⟨a, hmem, if_pos hva⟩

theorem renamedBy_mapVariables (hvar : ∀ a ∈ c.variableSet, Name.isVariable (ρ a) = true)
    (hinj : Set.InjOn ρ c.variableSet)
    (hrow : ∀ a ∈ c.variableSet, Name.isRowVariable (ρ a) = Name.isRowVariable a) :
    c.RenamedBy ρ (c.mapVariables ρ) where
  eq := rfl
  bijOn := by
    rw [variableSet_mapVariables hvar]
    exact hinj.bijOn_image
  row := hrow

theorem RenamedBy.isVariable (h : c.RenamedBy ρ d) : ∀ a ∈ c.variableSet, Name.isVariable (ρ a) = true :=
  fun _ ha => (h.bijOn.mapsTo ha).1

theorem RenamedBy.isVariable_of_mem (h : c.RenamedBy ρ d) {x : Term} (hx : x ∈ c.literals) :
    ∀ a ∈ x.atoms, Name.isVariable a = true → Name.isVariable (ρ a) = true :=
  fun a ha hv => h.isVariable a (mem_variableSet hx ha hv)

theorem RenamedBy.trans (h : c.RenamedBy ρ d) (h' : d.RenamedBy σ e) : c.RenamedBy (σ ∘ ρ) e where
  eq := by
    have hmap : ∀ xs : List Term, (∀ x ∈ xs, x ∈ c.literals) →
        (xs.map fun x => x.mapVariables ρ).map (fun x => x.mapVariables σ) =
          xs.map fun x => x.mapVariables (σ ∘ ρ) := by
      intro xs hxs
      rw [List.map_map]
      exact List.map_congr_left fun x hx =>
        Term.mapVariables_mapVariables (h.isVariable_of_mem (hxs x hx))
    rw [h'.eq, h.eq]
    exact congrArg₂ Clause.mk (hmap _ fun x hx => List.mem_append_left _ hx)
      (hmap _ fun x hx => List.mem_append_right _ hx)
  bijOn := h'.bijOn.comp h.bijOn
  row a ha := (h'.row _ (h.bijOn.mapsTo ha)).trans (h.row a ha)

/-- different literals stay different -/
theorem RenamedBy.literal_inj (h : c.RenamedBy ρ d) {x y : Term} (hx : x ∈ c.literals)
    (hy : y ∈ c.literals) (he : x.mapVariables ρ = y.mapVariables ρ) : x = y := by
  refine Term.mapVariables_inj (fun a ha hv => ?_) (fun a ha b hb hva hvb hab => ?_) he
  · exact ha.elim (fun ha => h.isVariable_of_mem hx a ha hv) fun ha => h.isVariable_of_mem hy a ha hv
  · exact h.bijOn.injOn (mem_variableSet hx ha hva) (mem_variableSet hy hb hvb) hab

theorem RenamedBy.isProper (h : c.RenamedBy ρ d) (hc : c.IsProper) : d.IsProper := by
  have hliterals : ∀ {Q : Term → Prop}, (∀ x ∈ c.literals, Q (x.mapVariables ρ)) →
      ∀ y ∈ d.literals, Q y := by
    intro Q hQ
    rw [h.eq, literals_mapVariables]
    exact List.forall_mem_map.mpr hQ
  constructor
  case plain => exact hliterals fun x hx => (hc.plain x hx).mapVariables (h.isVariable_of_mem hx)
  case ne_falsum =>
    exact hliterals fun x hx he => hc.ne_falsum x hx
      (Term.eq_constant_of_mapVariables (h.isVariable_of_mem hx) (by decide) he)
  case nodup_negative =>
    rw [h.eq]
    exact hc.nodup_negative.map_on fun x hx y hy =>
      h.literal_inj (List.mem_append_left _ hx) (List.mem_append_left _ hy)
  case nodup_positive =>
    rw [h.eq]
    exact hc.nodup_positive.map_on fun x hx y hy =>
      h.literal_inj (List.mem_append_right _ hx) (List.mem_append_right _ hy)

/-! ## the clause as a formula -/

/-- the literals with falsity in place of negated truth -/
def settledLiterals (c : Clause) : List Term := c.negative.map (Term.settle false) ++ c.positive

/-- the clause as a formula with falsity in place of negated truth -/
def settled (c : Clause) : Term := Term.collapse "or" c.settledLiterals

theorem toTerm_eq (hne : c.literals ≠ []) :
    c.toTerm = Term.collapse "or" (c.negative.map Term.neg ++ c.positive) := by
  have hne' : c.negative.map Term.neg ++ c.positive ≠ [] := by simpa [literals] using hne
  unfold toTerm
  split
  · next he => exact absurd he hne'
  · next he =>
    rw [he]
    rfl
  · next hone => exact (Term.collapse_of_ne hone).symm

section

variable (hc : c.IsProper)

include hc

theorem IsProper.settledLiterals : ∀ x ∈ c.settledLiterals, x.IsProperLiteral Term.Plain := by
  refine List.forall_mem_append.mpr ⟨List.forall_mem_map.mpr fun x hx => ?_, fun x hx => ?_⟩
  · have hmem := List.mem_append_left c.positive hx
    exact (hc.plain x hmem).isProperLiteral_settle_false (hc.ne_falsum x hmem)
  · exact .atomic (hc.plain x (List.mem_append_right _ hx))

theorem IsProper.isDisjunction_settled : c.settled.IsDisjunction Term.Nonlogical :=
  Term.isDisjunction_collapse fun x hx => (hc.settledLiterals x hx).over_nonlogical

theorem IsProper.mem_variableSet_of_settled {a : String} (ha : a ∈ c.settled.atoms)
    (hv : Name.isVariable a = true) : a ∈ c.variableSet := by
  obtain ⟨x, hx, ha⟩ := (Term.mem_atoms_collapse hv).mp ha
  rcases List.mem_append.mp hx with hx | hx
  · obtain ⟨y, hy, rfl⟩ := List.mem_map.mp hx
    have hmem := List.mem_append_left c.positive hy
    rw [(hc.plain y hmem).mem_atoms_settle_false (hc.ne_falsum y hmem) hv] at ha
    exact mem_variableSet hmem ha hv
  · exact mem_variableSet (List.mem_append_right _ hx) ha hv

theorem IsProper.mem_atoms_settled {a : String} (ha : a ∈ c.variableSet) : a ∈ c.settled.atoms := by
  obtain ⟨hv, x, hx, ha⟩ := ha
  refine (Term.mem_atoms_collapse hv).mpr ?_
  rcases List.mem_append.mp hx with hneg | hpos
  · refine ⟨x.settle false, List.mem_append_left _ (List.mem_map_of_mem hneg), ?_⟩
    exact ((hc.plain x hx).mem_atoms_settle_false (hc.ne_falsum x hx) hv).mpr ha
  · exact ⟨x, List.mem_append_right _ hpos, ha⟩

theorem IsProper.settled_mapVariables
    (hvar : ∀ x ∈ c.literals, ∀ a ∈ x.atoms, Name.isVariable a = true → Name.isVariable (ρ a) = true) :
    c.settled.mapVariables ρ = (c.mapVariables ρ).settled := by
  have hnegative : (c.negative.map (Term.settle false)).map (fun x => x.mapVariables ρ) =
      (c.negative.map fun x => x.mapVariables ρ).map (Term.settle false) := by
    rw [List.map_map, List.map_map]
    refine List.map_congr_left fun x hx => ?_
    have hmem := List.mem_append_left c.positive hx
    exact (hc.plain x hmem).settle_false_mapVariables (hvar x hmem) (hc.ne_falsum x hmem)
  refine (Term.map_collapse (g := fun x => x.mapVariables ρ) fun args =>
    Term.mapVariables_apply .disj args ρ).trans (congrArg (Term.collapse "or") ?_)
  rw [Clause.settledLiterals, List.map_append, hnegative]
  rfl

/-- before its variables are renamed nothing happens to the clause as a formula but that negated truth
becomes falsity -/
theorem IsProper.normal_toTerm (hne : c.literals ≠ []) : ClausalForm.normal c.toTerm = c.settled := by
  have hliterals : ∀ x ∈ c.negative.map Term.neg ++ c.positive, x.IsLiteral Term.Nonlogical := by
    refine List.forall_mem_append.mpr ⟨List.forall_mem_map.mpr fun x hx => ?_, fun x hx => ?_⟩
    · exact .negated (hc.plain x (List.mem_append_left _ hx)).nonlogical
    · exact .atomic (hc.plain x (List.mem_append_right _ hx)).nonlogical
  have hpush : ∀ ts : List Term, (Term.collapse "or" ts).pushNegations =
      Term.collapse "or" (ts.map (Term.settle true)) :=
    fun ts => Term.map_collapse fun args => (Term.settle_disj args).1
  have hpositive : c.positive.map (Term.settle true) = c.positive :=
    Term.map_eq_self fun x hx => (hc.plain x (List.mem_append_right _ hx)).nonlogical.settle
  have hnegative : (c.negative.map Term.neg).map (Term.settle true) =
      c.negative.map (Term.settle false) := by
    rw [List.map_map]
    exact List.map_congr_left fun x _ => Term.settle_neg true x
  rw [ClausalForm.normal, toTerm_eq hne, (Term.isDisjunction_collapse hliterals).arrowsOut]
  refine Term.negationsIn_of_pushNegations ?_ ?_
  · rw [hpush, List.map_append, hnegative, hpositive]
    rfl
  · rw [settled, hpush, Term.map_eq_self fun x hx => (hc.settledLiterals x hx).settle]

/-! ## the clause read off again -/

theorem IsProper.add_settle_false {x : Term} (hx : x ∈ c.literals) (d : Clause) :
    d.add (x.settle false) = { d with negative := Distinct.add d.negative x } := by
  rw [(hc.plain x hx).settle_false_eq (hc.ne_falsum x hx)]
  split
  · next he =>
    rw [he]
    rfl
  · rfl

theorem IsProper.foldl_add_negative {xs : List Term} (hxs : ∀ x ∈ xs, x ∈ c.literals) (d : Clause) :
    (xs.map (Term.settle false)).foldl Clause.add d =
      { d with negative := Distinct.addAll d.negative xs } := by
  induction xs generalizing d with
  | nil => rfl
  | cons x xs ih =>
    obtain ⟨hx, hxs⟩ := List.forall_mem_cons.mp hxs
    rw [List.map_cons, List.foldl_cons, hc.add_settle_false hx, ih hxs]
    rfl

theorem IsProper.foldl_add_positive {xs : List Term} (hxs : ∀ x ∈ xs, x ∈ c.literals) (d : Clause) :
    xs.foldl Clause.add d = { d with positive := Distinct.addAll d.positive xs } := by
  induction xs generalizing d with
  | nil => rfl
  | cons x xs ih =>
    obtain ⟨hx, hxs⟩ := List.forall_mem_cons.mp hxs
    rw [List.foldl_cons, d.add_of_ne (hc.plain x hx).ne_neg (hc.ne_falsum x hx), ih hxs]
    rfl

/-- the literals with falsity in place of negated truth are those of the clause that they come from -/
theorem IsProper.ofLiterals_settledLiterals : ofLiterals c.settledLiterals = c := by
  rw [ofLiterals, Clause.settledLiterals, List.foldl_append,
    hc.foldl_add_negative fun x hx => List.mem_append_left _ hx,
    hc.foldl_add_positive fun x hx => List.mem_append_right _ hx]
  -- no literal is there twice, so that none is left out
  exact congrArg₂ Clause.mk (Distinct.ofList_of_nodup hc.nodup_negative)
    (Distinct.ofList_of_nodup hc.nodup_positive)

theorem IsProper.clauses_settled : c.settled.clauses = [c] := by
  have hoperands : c.settled.operands .disj = c.settledLiterals := Term.operands_collapse fun x hx =>
    (hc.settledLiterals x hx).over_nonlogical.operator?_ne (fun _ h => h) .disj (by decide)
  have hconj : c.settled.operands .conj = [c.settled] :=
    if_neg (hc.isDisjunction_settled.operator?_ne fun _ h => h)
  rw [Term.clauses, hconj]
  show [ofLiterals (c.settled.operands .disj)] = [c]
  rw [hoperands, hc.ofLiterals_settledLiterals]

/-! ## the variables renamed -/

theorem IsProper.renamingDraws_le {names : List String} (hnames : ∀ a ∈ c.variableSet, a ∈ names) :
    c.settled.renamingDraws ≤ names.length := by
  have hfree : c.settled.freeVariables ⊆ names := fun a ha => hnames a
    (hc.mem_variableSet_of_settled (Term.mem_atoms_of_mem_freeVariables ha)
      (Term.isVariable_of_mem_freeVariables ha))
  rw [Term.renamingDraws, Term.bound, Term.boundBy_of_binders _ hc.isDisjunction_settled.binders,
    List.length_nil, Nat.zero_add]
  exact (c.settled.nodup_freeVariables.subperm hfree).length_le

/-- a clause with few variables written as a formula is another such clause written as a formula when its
variables are renamed -/
theorem IsProper.exists_renamedBy {names : List String} (hlen : names.length < 2 ^ 32)
    (hnames : ∀ a ∈ c.variableSet, a ∈ names) (links : RenameMap) (s : Supply) :
    ∃ ρ d, c.RenamedBy ρ d ∧ (c.settled.renameApart links s).1.1 = d.settled := by
  obtain ⟨_, added, hspec⟩ := Term.renameApart_spec c.settled links s
  have hbinders : (c.settled.renameApart links s).1.1.binders = 0 :=
    (hc.isDisjunction_settled.renames (fun hs h => h.nonlogical hs) hspec.renames).binders
  have hspelled := hspec.respelled (Nat.lt_of_le_of_lt (hc.renamingDraws_le hnames) hlen) hbinders
  have hvar : ∀ a ∈ c.variableSet, Name.isVariable ((added.lookup a).getD a) = true := by
    intro a ha
    have hmem := hc.mem_atoms_settled ha
    rw [Name.isVariable_of_kinds (hspelled.plain a hmem ha.1) (hspelled.row a hmem ha.1)]
    exact ha.1
  refine ⟨_, c.mapVariables _, renamedBy_mapVariables hvar (fun a ha b hb he => ?_) fun a ha => ?_, ?_⟩
  · exact hspelled.inj a (hc.mem_atoms_settled ha) b (hc.mem_atoms_settled hb) ha.1 hb.1 he
  · exact hspelled.row a (hc.mem_atoms_settled ha) ha.1
  · rw [hspelled.eq]
    exact hc.settled_mapVariables fun x hx a ha hv => hvar a (mem_variableSet hx ha hv)

end

end Clause

namespace ClausalForm

open Term

/-- a proper clause with few variables, written as a formula, has one clause, the same with other
variables -/
theorem clauses_of_isProper {c : Clause} (hc : c.IsProper) (hne : c.literals ≠ []) {names : List String}
    (hlen : names.length < 2 ^ 32) (hnames : ∀ a ∈ c.variableSet, a ∈ names) (s : Supply) :
    ∃ ρ d, (ofTerm c.toTerm s).1.clauses = [d] ∧ c.RenamedBy ρ d := by
  obtain ⟨ρ, d, hd, hfirst⟩ := hc.exists_renamedBy hlen hnames .empty s
  have hd' := hd.isProper hc
  have hnames' : ∀ a ∈ d.variableSet, a ∈ names.map ρ := by
    intro b hb
    obtain ⟨a, ha, rfl⟩ := hd.bijOn.surjOn hb
    exact List.mem_map_of_mem (hnames a ha)
  have hrenamed : (renamed c.toTerm s).1.1 = d.settled := by
    rw [renamed, hc.normal_toTerm hne, hfirst]
  have hmatrix : matrix c.toTerm s = d.settled := by
    have hbinders := hd'.isDisjunction_settled.binders
    rw [matrix, skolemized, hrenamed, existentialsOut, skolemize_of_binders _ hbinders,
      universalsOut_of_binders hbinders, hd'.isDisjunction_settled.disjunctionsIn]
  have hlen' : (names.map ρ).length < 2 ^ 32 := by rwa [List.length_map]
  obtain ⟨σ, e, he, hsecond⟩ := hd'.exists_renamedBy hlen' hnames' (renamed c.toTerm s).1.2
    (skolemized c.toTerm s).2
  have hterm : (ofTerm c.toTerm s).1.term = e.settled := by
    have hconj := hd'.isDisjunction_settled.operator?_ne fun _ h => h
    rw [ofTerm_eq, hmatrix, standardizeApart, if_neg hconj, hsecond]
  refine ⟨σ ∘ ρ, e, ?_, hd.trans he⟩
  rw [clauses, hterm, (he.isProper hd').clauses_settled]

/-- the variables of the clauses are names that the run takes for the variables of the conjuncts -/
theorem exists_names {t : Term} {s : Supply} (hdraws : draws t s < 2 ^ 32) :
    ∃ names : List String, names.length < 2 ^ 32 ∧
      ∀ c ∈ (ofTerm t s).1.clauses, ∀ a ∈ c.variableSet, a ∈ names := by
  obtain ⟨pairs, hspec⟩ := renameEach_spec ((matrix t s).operands .conj) (renamed t s).1.2
    (skolemized t s).2
  refine ⟨pairs.map Prod.fst, ?_, fun c hc a ha => ?_⟩
  · rw [hspec.length]
    rw [draws] at hdraws
    omega
  · obtain ⟨x, hx, hmem⟩ := exists_operand_of_mentions hc ha.1 ha.2
    rw [ofTerm_eq, operands_standardizeApart] at hx
    exact hspec.mem_names x hx a hmem ha.1

/-- For a run that takes fewer names than the counter has values: a clause that has literals, written as a
formula, has one clause, which lists the same literals in the same order with the variables renamed one to
one, whatever supply the second run starts with. -/
theorem clauses_toTerm (t : Term) (ht : t.IsFormula Plain .full) (s : Supply)
    (hdraws : draws t s < 2 ^ 32) {c : Clause} (hc : c ∈ (ofTerm t s).1.clauses)
    (hne : c.literals ≠ []) (s' : Supply) :
    ∃ ρ d, (ofTerm c.toTerm s').1.clauses = [d] ∧ c.RenamedBy ρ d := by
  obtain ⟨names, hlen, hnames⟩ := exists_names hdraws
  exact clauses_of_isProper (isProper_of_mem ht s hc) hne hlen (hnames c hc) s'

/-- negated truth beside an existential formula, below an arrow -/
def impliedExistence : Term := .implies (.app "p" [.atom "?X"]) (.disj [.neg (.atom trueName),
  .quantified Quantifier.any.name ["?Y"] (.app "q" [.atom "?X", .atom "?Y"])])

/-- its clause, with a Skolem term -/
def impliedExistenceClause : Clause := ⟨[.app "p" [.atom "?VAR4"], .verum],
  [.app "q" [.atom "?VAR4", .app "SkFn3" [.atom "?VAR4"]]]⟩

theorem isFormula_impliedExistence : impliedExistence.IsFormula Plain .full := by
  have hp : (app "p" [.atom "?X"]).Plain := plain_list (List.forall_mem_cons.mpr
    ⟨plain_atom (by decide), List.forall_mem_singleton.mpr (plain_atom (by decide))⟩)
  have hq : (app "q" [.atom "?X", .atom "?Y"]).Plain := plain_list (List.forall_mem_cons.mpr
    ⟨plain_atom (by decide), List.forall_mem_cons.mpr
      ⟨plain_atom (by decide), List.forall_mem_singleton.mpr (plain_atom (by decide))⟩⟩)
  refine .implies trivial (.atomic hp) (.disj (List.forall_mem_cons.mpr ⟨.literal plain_verum, ?_⟩))
  exact List.forall_mem_singleton.mpr (.quantified trivial (by decide) (.atomic hq))

theorem draws_impliedExistence : draws impliedExistence ⟨0⟩ = 4 := by cbv

theorem clauses_impliedExistence :
    (ofTerm impliedExistence ⟨0⟩).1.clauses = [impliedExistenceClause] := by cbv

theorem clauses_toTerm_impliedExistence : impliedExistence.IsFormula Plain .full ∧
    draws impliedExistence ⟨0⟩ < 2 ^ 32 ∧
    impliedExistenceClause ∈ (ofTerm impliedExistence ⟨0⟩).1.clauses ∧
    impliedExistenceClause.literals ≠ [] ∧
    ∀ s', ∃ ρ d, (ofTerm impliedExistenceClause.toTerm s').1.clauses = [d] ∧
      impliedExistenceClause.RenamedBy ρ d := by
  have hdraws : draws impliedExistence ⟨0⟩ < 2 ^ 32 := by
    rw [draws_impliedExistence]
    decide
  have hc : impliedExistenceClause ∈ (ofTerm impliedExistence ⟨0⟩).1.clauses := by
    rw [clauses_impliedExistence]
    exact List.mem_singleton_self _
  have hne : impliedExistenceClause.literals ≠ [] := List.cons_ne_nil _ _
  exact ⟨isFormula_impliedExistence, hdraws, hc, hne,
    clauses_toTerm impliedExistence isFormula_impliedExistence ⟨0⟩ hdraws hc hne⟩

/-- the clause without literals is written as falsity, which has a literal -/
example : (ofTerm Clause.empty.toTerm ⟨0⟩).1.clauses = [⟨[.verum], []⟩] := by cbv

end ClausalForm

end OntologyPrep
