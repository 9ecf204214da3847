import OntologyPrep.Proofs.Meaning.NormalForm
import OntologyPrep.Proofs.Normal.Respelling

/-!
# No literal negates truth or falsity

* `ClausalForm.isPositive_ofTerm`    once the negations are moved in, no step makes a negation of truth or
                                     of falsity;
* `ClausalForm.isProper_of_mem`      so that a clause of a formula has each of its literals once, and none
                                     of them is falsity or its negation.

The literals are followed through the steps by the lemmas on positive combinations of literals, which ask
only what renaming and Skolem terms do to a single literal.
-/

namespace OntologyPrep

namespace Term

/-- an atomic formula, or the negation of one other than truth and falsity -/
inductive IsProperLiteral (P : Term → Prop) : Term → Prop where
  | atomic {t : Term} : P t → IsProperLiteral P t
  | negated {t : Term} : P t → t ≠ .verum → t ≠ .falsum → IsProperLiteral P t.neg

variable {P : Term → Prop}

theorem IsProperLiteral.isLiteral {t : Term} (h : t.IsProperLiteral P) : t.IsLiteral P := by
  cases h with
  | atomic h => exact .atomic h
  | negated h => exact .negated h

theorem IsProperLiteral.over_nonlogical (t : Term) (h : t.IsProperLiteral Plain) : t.IsLiteral Nonlogical :=
  h.isLiteral.of_atomic fun _ h => h.nonlogical

theorem IsNegationNormal.isPositive {t : Term} (h : t.IsNegationNormal P) :
    t.IsPositive (IsProperLiteral P) fun _ => True := by
  induction h with
  | atomic h => exact .literal (.atomic h)
  | negated h hverum hfalsum => exact .literal (.negated h hverum hfalsum)
  | conj _ ih => exact .conj ih
  | disj _ ih => exact .disj ih
  | quantified hnames _ ih => exact .quantified trivial hnames ih

theorem Plain.ne_neg {t : Term} (h : t.Plain) (u : Term) : t ≠ u.neg := by
  rintro rfl
  exact not_plain_apply .neg [u] h

/-! ## what becomes of a literal -/

/-- only a constant is renamed to a constant -/
theorem Renames.eq_constant {ρ : String → String} {t : Term} {a : String}
    (ha : Name.isVariable a = false) (h : Renames ρ t (.atom a)) : t = .atom a := by
  generalize he : Term.atom a = t' at h
  cases h with
  | const _ => rfl
  | var _ hv =>
    rw [← Term.atom.inj he, ha] at hv
    cases hv
  | binder _ _ _ => cases he
  | list _ _ _ => cases he

/-- only a constant becomes one by a Skolem term, unless it is a Skolem symbol -/
theorem eq_constant_of_substitute {t : Term} {name symbol a : String} {universals : List String}
    (ha : Name.isSkolem a = false) (hsymbol : Name.isSkolem symbol = true)
    (h : t.substitute name (.ofSkolem symbol universals) = .atom a) : t = .atom a := by
  cases t with
  | list xs =>
    rw [substitute] at h
    split at h <;> cases h
  | atom b =>
    rw [substitute_atom] at h
    split at h
    · cases universals with
      | nil =>
        rw [← Term.atom.inj h, hsymbol] at ha
        cases ha
      | cons u us => cases h
    · exact h

theorem IsProperLiteral.renames {ρ : String → String} {t t' : Term} (h : t.IsProperLiteral Plain)
    (ht : Renames ρ t t') : t'.IsProperLiteral Plain := by
  cases h with
  | atomic h => exact .atomic (ht.plain h)
  | negated h hverum hfalsum =>
    obtain ⟨args', rfl, hlen, hzip⟩ := ht.exists_operands (by decide)
    obtain ⟨u', rfl, hu⟩ := exists_single hlen hzip
    refine .negated (hu.plain h) ?_ ?_
    · rintro rfl
      exact hverum (hu.eq_constant (by decide))
    · rintro rfl
      exact hfalsum (hu.eq_constant (by decide))

theorem IsProperLiteral.substitute {t : Term} {name symbol : String} {universals : List String}
    (h : t.IsProperLiteral Plain) (hvar : Name.isVariable name = true)
    (hsymbol : Name.isSkolem symbol = true) (hu : ∀ a ∈ universals, Name.isVariable a = true) :
    (t.substitute name (.ofSkolem symbol universals)).IsProperLiteral Plain := by
  have hvalue := (isIndividual_ofSkolem hsymbol hu).plain
  cases h with
  | atomic h => exact .atomic (h.substitute _ hvalue)
  | negated h hverum hfalsum =>
    rw [substitute_neg hvar]
    refine .negated (h.substitute _ hvalue) ?_ ?_
    · exact fun he => hverum (eq_constant_of_substitute (by decide) hsymbol he)
    · exact fun he => hfalsum (eq_constant_of_substitute (by decide) hsymbol he)

/-! ## the literals of a conjunction of disjunctions -/

section

variable {L : Term → Prop} (hL : ∀ s, L s → s.IsLiteral Nonlogical) {allowed : Quantifier → Prop} {t : Term}

include hL

theorem IsPositive.operands {o : Operator} (ho : o = .conj ∨ o = .disj) (h : t.IsPositive L allowed) :
    ∀ x ∈ t.operands o, x.IsPositive L allowed := by
  unfold Term.operands
  split
  · next hop =>
    rw [eq_apply_of_operator? hop] at h
    exact fun x hx => h.of_mem_args hL ho hx
  · exact List.forall_mem_singleton.mpr h

/-- every conjunct with variables of its own -/
theorem isPositive_standardizeApart
    (hren : ∀ {ρ : String → String} {s s' : Term}, L s → Renames ρ s s' → L s')
    (h : t.IsPositive L allowed) (links : RenameMap) (s : Supply) :
    (t.standardizeApart links s).1.1.IsPositive L allowed := by
  by_cases hconj : t.operator? = some .conj
  · obtain ⟨hlen, hzip⟩ := renameEach_zip t.args links s
    rw [eq_apply_of_operator? hconj] at h
    rw [standardizeApart, if_pos hconj]
    refine .conj (forall_mem_of_zip hlen fun p hp => ?_)
    obtain ⟨_, _, _, _, hspec⟩ := hzip p hp
    exact hspec.renames.isPositive hren
      (h.of_mem_args hL (o := .conj) (.inl rfl) (List.of_mem_zip hp).1)
  · obtain ⟨_, _, hspec⟩ := renameApart_spec t links s
    rw [standardizeApart, if_neg hconj]
    exact hspec.renames.isPositive hren h

omit hL in
/-- a positive combination of literals that is a literal of some kind is one of those -/
theorem IsPositive.of_isLiteral (hP : ∀ s, P s → s.Nonlogical) (h : t.IsPositive L fun _ => False)
    (ht : t.IsLiteral P) : L t := by
  cases h with
  | literal h => exact h
  | conj _ => exact absurd rfl (ht.operator?_ne hP .conj (by decide))
  | disj _ => exact absurd rfl (ht.operator?_ne hP .disj (by decide))
  | quantified hq => exact hq.elim

end

theorem isProperLiteral_operands {t : Term} (hclausal : t.IsClausal Plain)
    (hpositive : t.IsPositive (IsProperLiteral Plain) fun _ => False) :
    ∀ u ∈ t.operands .conj, ∀ x ∈ u.operands .disj, x.IsProperLiteral Plain := by
  have hP : ∀ s : Term, s.Plain → s.Nonlogical := fun _ h => h.nonlogical
  intro u hu x hx
  refine IsPositive.of_isLiteral hP ?_ ((hclausal.operands hP u hu).operands hP x hx)
  exact (hpositive.operands IsProperLiteral.over_nonlogical (.inl rfl) u hu).operands
    IsProperLiteral.over_nonlogical (.inr rfl) x hx

end Term

/-! ## clauses -/

/-- a clause of terms without operators that has each literal once and does not mention falsity: as a
literal it counts as negated truth, and its negation would be truth -/
structure Clause.IsProper (c : Clause) : Prop where
  plain : ∀ x ∈ c.literals, x.Plain
  ne_falsum : ∀ x ∈ c.literals, x ≠ .falsum
  nodup_negative : c.negative.Nodup
  nodup_positive : c.positive.Nodup

namespace Clause

variable {c : Clause}

theorem isProper_empty : empty.IsProper :=
  ⟨fun _ hx => absurd hx List.not_mem_nil, fun _ hx => absurd hx List.not_mem_nil, .nil, .nil⟩

theorem IsProper.of_literals (h : c.IsProper) {d : Clause} {t : Term} (ht : t.Plain) (hne : t ≠ .falsum)
    (hd : ∀ x ∈ d.literals, x ∈ c.literals ∨ x = t) (hnegative : d.negative.Nodup)
    (hpositive : d.positive.Nodup) : d.IsProper where
  plain x hx := (hd x hx).elim (h.plain x) fun he => he ▸ ht
  ne_falsum x hx := (hd x hx).elim (h.ne_falsum x) fun he => he ▸ hne
  nodup_negative := hnegative
  nodup_positive := hpositive

theorem IsProper.addNegative (h : c.IsProper) {t : Term} (ht : t.Plain) (hne : t ≠ .falsum) :
    ({ c with negative := Distinct.add c.negative t } : Clause).IsProper := by
  refine h.of_literals ht hne (fun x hx => ?_) (Distinct.nodup_add h.nodup_negative t) h.nodup_positive
  rcases List.mem_append.mp hx with hx | hx
  · exact (Distinct.mem_add.mp hx).imp_left (List.mem_append_left _)
  · exact .inl (List.mem_append_right _ hx)

theorem IsProper.addPositive (h : c.IsProper) {t : Term} (ht : t.Plain) (hne : t ≠ .falsum) :
    ({ c with positive := Distinct.add c.positive t } : Clause).IsProper := by
  refine h.of_literals ht hne (fun x hx => ?_) h.nodup_negative (Distinct.nodup_add h.nodup_positive t)
  rcases List.mem_append.mp hx with hx | hx
  · exact .inl (List.mem_append_left _ hx)
  · exact (Distinct.mem_add.mp hx).imp_left (List.mem_append_right _)

theorem IsProper.add (h : c.IsProper) {t : Term} (ht : t.IsProperLiteral Term.Plain) :
    (c.add t).IsProper := by
  cases ht with
  | negated ht _ hfalsum => exact h.addNegative ht hfalsum
  | atomic ht =>
    by_cases hfalsum : t = .falsum
    · rw [hfalsum]
      exact h.addNegative Term.plain_verum (by decide)
    · rw [c.add_of_ne ht.ne_neg hfalsum]
      exact h.addPositive ht hfalsum

theorem isProper_ofLiterals {ts : List Term} (h : ∀ t ∈ ts, t.IsProperLiteral Term.Plain) :
    (ofLiterals ts).IsProper := by
  have hfold : ∀ c : Clause, c.IsProper → (ts.foldl Clause.add c).IsProper := by
    induction ts with
    | nil => exact fun c hc => hc
    | cons t ts ih =>
      exact fun c hc => ih (fun u hu => h u (List.mem_cons_of_mem _ hu)) _
        (hc.add (h t List.mem_cons_self))
  exact hfold empty isProper_empty

end Clause

namespace ClausalForm

open Term

variable {t : Term} (ht : t.IsFormula Plain .full) (s : Supply)

include ht

/-- the term of the form is built from literals that negate neither truth nor falsity -/
theorem isPositive_ofTerm :
    (ofTerm t s).1.term.IsPositive (IsProperLiteral Plain) fun _ => False := by
  have hnormal : (normal t).IsPositive (IsProperLiteral Plain) fun _ => True :=
    (isNegationNormal_of_fixed (isFormula_normal (fun _ h => h.nonlogical) plain_verum plain_falsum ht)
      (pushNegations_negationsIn _)).isPositive
  obtain ⟨_, _, hspec⟩ := renameApart_spec (normal t) .empty s
  have hrenamed : (renamed t s).1.1.IsPositive (IsProperLiteral Plain) fun _ => True :=
    hspec.renames.isPositive IsProperLiteral.renames hnormal
  have hskolemized : (skolemized t s).1.IsPositive (IsProperLiteral Plain) (· = .all) :=
    hrenamed.skolemize IsProperLiteral.over_nonlogical IsProperLiteral.substitute
      (fun _ ha => isVariable_of_mem_freeVariables ha) _
  exact isPositive_standardizeApart IsProperLiteral.over_nonlogical IsProperLiteral.renames
    ((hskolemized.universalsOut IsProperLiteral.over_nonlogical).disjunctionsIn IsProperLiteral.over_nonlogical) _ _

theorem isProper_of_mem {c : Clause} (hc : c ∈ (ofTerm t s).1.clauses) : c.IsProper := by
  have hclausal : (ofTerm t s).1.term.IsClausal Plain :=
    isClausal_ofTerm (fun _ h => h.nonlogical) plain_verum plain_falsum Renames.plain
      (fun h _ hsk hu => h.substitute _ (isIndividual_ofSkolem hsk hu).plain) ht s
  have hliterals := isProperLiteral_operands hclausal (isPositive_ofTerm ht s)
  unfold clauses Term.clauses at hc
  split at hc
  · rw [List.mem_singleton] at hc
    exact hc ▸ Clause.isProper_ofLiterals (List.forall_mem_singleton.mpr (.atomic plain_verum))
  · obtain ⟨u, hu, rfl⟩ := List.mem_map.mp hc
    exact Clause.isProper_ofLiterals (hliterals u hu)

end ClausalForm

end OntologyPrep
