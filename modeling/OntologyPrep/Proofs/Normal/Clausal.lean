import OntologyPrep.Proofs.Normal.Apart

/-!
# The shape of a clausal form

* `Term.IsClausal`                     a conjunction of disjunctions of literals, none of them of a
                                       single part and none directly inside another one of its kind;
* `Term.isClausal_of_fixed`            what distributing and merging leave as it is has that shape;
* `ClausalForm.clauses_atomic`         a formula has at least one clause, no literal of a clause is headed
                                       by a logical operator, and the term of its form has that shape.

The shape is read off the fixed point and not off the single rounds: a round may leave a conjunction deep
inside a disjunction.
-/

namespace OntologyPrep

namespace Term

variable {P : Term → Prop}

/-! ## shapes -/

/-- a literal, or a disjunction of any number of literals but one -/
inductive IsDisjunction (P : Term → Prop) : Term → Prop where
  | literal {t : Term} : t.IsLiteral P → IsDisjunction P t
  | disj {args : List Term} : args.length ≠ 1 → (∀ x ∈ args, x.IsLiteral P) →
    IsDisjunction P (.disj args)

/-- a disjunction of literals, or a conjunction of any number of them but one -/
inductive IsClausal (P : Term → Prop) : Term → Prop where
  | disjunction {t : Term} : t.IsDisjunction P → IsClausal P t
  | conj {args : List Term} : args.length ≠ 1 → (∀ x ∈ args, x.IsDisjunction P) →
    IsClausal P (.conj args)

theorem IsClausal.isDisjunction {t : Term} (h : t.IsClausal P) (hne : ∀ xs, t ≠ .conj xs) :
    t.IsDisjunction P := by
  cases h with
  | disjunction h => exact h
  | conj _ _ => exact absurd rfl (hne _)

theorem IsDisjunction.isLiteral {t : Term} (h : t.IsDisjunction P) (hne : ∀ xs, t ≠ .disj xs) :
    t.IsLiteral P := by
  cases h with
  | literal h => exact h
  | disj _ _ => exact absurd rfl (hne _)

/-! ## what merging and distributing leave as it is -/

theorem fixed_of_clauseRound {t : Term} (h : t.clauseRound = t) :
    t.distribute = t ∧ t.flatten = t := by
  obtain ⟨hle, heq⟩ := clauseWeight_distribute t
  have hflat := (measures_flatten t.distribute).1
  rw [← clauseRound, h] at hflat
  have hd : t.distribute = t := heq (Nat.le_antisymm hle hflat)
  exact ⟨hd, by rwa [clauseRound, hd] at h⟩

theorem ne_app_of_flatMap_parts {op : String} {xs : List Term} (h : xs.flatMap (parts op) = xs) :
    ∀ x ∈ xs, ∀ args, x ≠ .app op args := by
  induction xs with
  | nil => exact fun x hx => absurd hx List.not_mem_nil
  | cons x xs ih =>
    rw [List.flatMap_cons] at h
    by_cases hx : ∃ args, x = .app op args
    · obtain ⟨args, rfl⟩ := hx
      have hnodes := congrArg (fun ys => total (ys.map nodes)) h
      have hle := (nodes_flatMap_parts op xs).1
      rw [parts_app] at hnodes
      simp only [List.map_append, total_append, List.map_cons, total_cons, app, nodes_list] at hnodes
      omega
    · have hne : ∀ args, x ≠ .app op args := fun args he => hx ⟨args, he⟩
      rw [parts_of_ne op hne, List.singleton_append] at h
      exact List.forall_mem_cons.mpr ⟨hne, ih (List.cons.inj h).2⟩

/-- an application that merging leaves as it is has parts that it leaves as they are, not just one, and
none of the same operator -/
theorem parts_of_merged {op : String} {args : List Term}
    (h : collapse op ((args.map flatten).flatMap (parts op)) = .app op args) :
    args.length ≠ 1 ∧ (∀ x ∈ args, x.flatten = x) ∧ ∀ x ∈ args, ∀ xs, x ≠ .app op xs := by
  obtain ⟨hone, hone'⟩ := sum_map_le fun x (_ : x ∈ args) => (measures_flatten x).2
  obtain ⟨hmerge, hmerge'⟩ := nodes_flatMap_parts op (args.map flatten)
  have hcollapse := (nodes_collapse op ((args.map flatten).flatMap (parts op))).1
  have hnodes : (app op args).nodes = 2 + total (args.map nodes) := by
    rw [app, nodes_list, List.map_cons, total_cons, nodes]
    omega
  rw [h, hnodes] at hcollapse
  -- no step may lower the number of nodes, so that each step does nothing
  have hargs : args.map flatten = args := hone' (by omega)
  have hflat : args.flatMap (parts op) = args := by
    have := hmerge' (by omega)
    rwa [hargs] at this
  refine ⟨fun hlen => ?_, fun x hx => ?_, ne_app_of_flatMap_parts hflat⟩
  · obtain ⟨x, rfl⟩ := List.length_eq_one_iff.mp hlen
    rw [hargs, hflat] at h
    have hx : x.nodes = (app op [x]).nodes := congrArg nodes h
    rw [hnodes, List.map_singleton, total_cons, total_nil] at hx
    omega
  · exact forall_of_map_eq_self hargs x hx

theorem conjuncts?_of_distributeFrom {before xs : List Term} (h : distributeFrom before xs = none) :
    ∀ x ∈ xs, x.conjuncts? = none := by
  induction xs generalizing before with
  | nil => exact fun x hx => absurd hx List.not_mem_nil
  | cons x after ih =>
    rw [distributeFrom] at h
    split at h
    · cases h
    · next hx => exact List.forall_mem_cons.mpr ⟨hx, ih h⟩

/-- a disjunction that distributing leaves as it is has parts that it leaves as they are, and no
conjunction among them -/
theorem parts_of_distributed {args : List Term} (h : (disj args).distribute = .disj args) :
    (∀ x ∈ args, x.distribute = x) ∧ ∀ x ∈ args, ∀ xs, x ≠ .conj xs := by
  rw [distribute_disj] at h
  obtain ⟨hproduct, hproduct'⟩ := product_map_le one_le_clauseWeight
    fun x (_ : x ∈ args) => clauseWeight_distribute x
  have hparts := (clauseWeight_distributeParts (args.map distribute)).1
  rw [h, clauseWeight_disj, clauseWeight_disj] at hparts
  have hargs : args.map distribute = args := hproduct' (by omega)
  refine ⟨forall_of_map_eq_self hargs, ?_⟩
  have hnone : distributeFrom [] args = none := by
    rw [Option.eq_none_iff_forall_ne_some]
    intro u hu
    have hlt := clauseWeight_distributeFrom hu
    rw [hargs, distributeParts, hu, Option.getD_some] at h
    rw [h, List.nil_append, clauseWeight_disj] at hlt
    exact Nat.lt_irrefl _ hlt
  rintro x hx xs rfl
  cases conjuncts?_of_distributeFrom hnone _ hx

/-- what distributing and merging leave as it is is a conjunction of disjunctions of literals -/
theorem isClausal_of_fixed {t : Term} (ht : t.IsFormula P .matrix) (hd : t.distribute = t)
    (hf : t.flatten = t) : t.IsClausal P := by
  induction ht with
  | atomic h => exact .disjunction (.literal (.atomic h))
  | literal h => exact .disjunction (.literal (.negated h))
  | @conj args _ ih =>
    rw [flatten_conj] at hf
    rw [distribute_conj] at hd
    obtain ⟨hlen, hflat, hne⟩ := parts_of_merged hf
    have hargs : args.map distribute = args := (List.cons.inj (Term.list.inj hd)).2
    have hdist : ∀ x ∈ args, x.distribute = x := forall_of_map_eq_self hargs
    exact .conj hlen fun x hx => (ih x hx (hdist x hx) (hflat x hx)).isDisjunction (hne x hx)
  | @disj args _ ih =>
    rw [flatten_disj] at hf
    obtain ⟨hlen, hflat, hne⟩ := parts_of_merged hf
    obtain ⟨hdist, hne'⟩ := parts_of_distributed hd
    refine .disjunction (.disj hlen fun x hx => ?_)
    exact ((ih x hx (hdist x hx) (hflat x hx)).isDisjunction (hne' x hx)).isLiteral (hne x hx)
  | neg hnested => exact hnested.elim
  | implies harrows => exact harrows.elim
  | iff harrows => exact harrows.elim
  | quantified hq => exact hq.elim

theorem isClausal_disjunctionsIn (hP : ∀ s, P s → s.Nonlogical) {t : Term} (ht : t.IsFormula P .matrix) :
    t.disjunctionsIn.IsClausal P := by
  obtain ⟨hd, hf⟩ := fixed_of_clauseRound (clauseRound_disjunctionsIn t)
  exact isClausal_of_fixed (isFormula_disjunctionsIn hP ht) hd hf

/-! ## renaming -/

theorem Renames.plain {ρ : String → String} {t t' : Term} (ht : t.Plain) (h : Renames ρ t t') :
    t'.Plain := by
  induction h with
  | const _ => exact ht
  | var _ hv => exact plain_atom (Name.isOperator_of_isVariable hv)
  | @binder _ b _ _ _ _ _ => exact absurd ht (not_plain_apply (.quant b.quantifier) [b.entries, b.body])
  | list _ hlen _ ih =>
    exact plain_list (forall_mem_of_zip hlen fun p hp => ih p hp (ht.of_mem (List.of_mem_zip hp).1))

section

variable (hren : ∀ {ρ : String → String} {s s' : Term}, P s → Renames ρ s s' → P s')

include hren

theorem IsLiteral.renames {ρ : String → String} {t t' : Term} (h : t.IsLiteral P)
    (ht : Renames ρ t t') : t'.IsLiteral P := by
  cases h with
  | atomic h => exact .atomic (hren h ht)
  | negated h =>
    obtain ⟨args', rfl, hlen, hzip⟩ := ht.exists_operands (by decide)
    obtain ⟨u', rfl, hu⟩ := exists_single hlen hzip
    exact .negated (hren h hu)

theorem IsDisjunction.renames {ρ : String → String} {t t' : Term} (h : t.IsDisjunction P)
    (ht : Renames ρ t t') : t'.IsDisjunction P := by
  cases h with
  | literal h => exact .literal (h.renames hren ht)
  | disj hone h =>
    obtain ⟨args', rfl, hlen, hzip⟩ := ht.exists_operands (by decide)
    exact .disj (hlen ▸ hone) (forall_mem_of_zip hlen fun p hp =>
      (h p.1 (List.of_mem_zip hp).1).renames hren (hzip p hp))

end

section

variable (hP : ∀ s, P s → s.Nonlogical)

include hP

theorem IsDisjunction.operator?_ne {t : Term} (h : t.IsDisjunction P) : t.operator? ≠ some .conj := by
  cases h with
  | literal h => exact h.operator?_ne hP .conj (by decide)
  | disj _ _ => exact (by decide : some Operator.disj ≠ some .conj)

theorem isClausal_standardizeApart
    (hren : ∀ {ρ : String → String} {s s' : Term}, P s → Renames ρ s s' → P s') {t : Term}
    (h : t.IsClausal P) (links : RenameMap) (s : Supply) :
    (t.standardizeApart links s).1.1.IsClausal P := by
  cases h with
  | disjunction h =>
    obtain ⟨_, _, hspec⟩ := renameApart_spec t links s
    rw [standardizeApart, if_neg (h.operator?_ne hP)]
    exact .disjunction (h.renames hren hspec.renames)
  | @conj args hone h =>
    obtain ⟨hlen, hzip⟩ := renameEach_zip args links s
    refine .conj (hlen ▸ hone) (forall_mem_of_zip hlen fun p hp => ?_)
    obtain ⟨_, _, _, _, hspec⟩ := hzip p hp
    exact (h p.1 (List.of_mem_zip hp).1).renames hren hspec.renames

/-! ## the literals of the clauses -/

theorem IsDisjunction.operands {t : Term} (h : t.IsDisjunction P) :
    ∀ x ∈ t.operands .disj, x.IsLiteral P := by
  cases h with
  | literal h =>
    rw [Term.operands, if_neg (h.operator?_ne hP .disj (by decide))]
    exact List.forall_mem_singleton.mpr h
  | disj _ h => exact h

theorem IsClausal.operands {t : Term} (h : t.IsClausal P) :
    ∀ x ∈ t.operands .conj, x.IsDisjunction P := by
  cases h with
  | disjunction h =>
    rw [Term.operands, if_neg (h.operator?_ne hP)]
    exact List.forall_mem_singleton.mpr h
  | conj _ h => exact h

/-- the literals of the clauses are atomic formulas of the kind -/
theorem atomic_clauses (hverum : P verum) {t : Term} (h : t.IsClausal P) :
    ∀ c ∈ t.clauses, ∀ x ∈ c.literals, P x := by
  have hclause : ∀ {ts : List Term}, (∀ u ∈ ts, u.IsLiteral P) →
      ∀ x ∈ (Clause.ofLiterals ts).literals, P x := by
    intro ts hts
    refine Clause.forall_literals hverum fun u hu => ?_
    cases hts u hu with
    | atomic hatomic =>
      refine ⟨?_, fun _ => hatomic⟩
      rintro v rfl
      exact absurd (hP _ hatomic) (not_nonlogical_apply .neg [v])
    | @negated v hatomic =>
      refine ⟨fun w he => ?_, fun hne => absurd rfl (hne v)⟩
      rwa [← (List.cons.inj (List.cons.inj (Term.list.inj he)).2).1]
  unfold clauses
  split
  · exact List.forall_mem_singleton.mpr
      (hclause (List.forall_mem_singleton.mpr (.atomic hverum)))
  · exact List.forall_mem_map.mpr fun u hu => hclause ((h.operands hP u hu).operands hP)

end

theorem plain_verum : verum.Plain := plain_atom (by decide)

theorem plain_falsum : falsum.Plain := plain_atom (by decide)

/-- every term has a clause -/
theorem clauses_ne_nil (t : Term) : t.clauses ≠ [] := by
  unfold clauses
  split
  · exact List.cons_ne_nil _ _
  · next hne => exact fun h => hne (List.map_eq_nil_iff.mp h)

end Term

namespace ClausalForm

section

variable {P : Term → Prop} (hP : ∀ s, P s → s.Nonlogical) (hverum : P .verum) (hfalsum : P .falsum)
  (hren : ∀ {ρ : String → String} {s s' : Term}, P s → Term.Renames ρ s s' → P s')
  (hskolem : ∀ {s : Term} {name symbol : String} {universals : List String}, P s →
    Name.isVariable name = true → Name.isSkolem symbol = true →
    (∀ a ∈ universals, Name.isVariable a = true) → P (s.substitute name (.ofSkolem symbol universals)))
  {t : Term} (ht : t.IsFormula P .full) (s : Supply)

include hP hverum hfalsum hren hskolem ht

theorem isFormula_skolemized : (skolemized t s).1.IsFormula P .universal :=
  Term.isFormula_skolemize hP hskolem (fun _ ha => Term.isVariable_of_mem_freeVariables ha)
    (isFormula_renamed hP hverum hfalsum ht hren s) _

/-- the formula whose disjunctions are moved inwards has no arrows, no quantifiers and negations of atomic
formulas only -/
theorem isFormula_quantifierFree : (skolemized t s).1.universalsOut.IsFormula P .matrix :=
  Term.isFormula_universalsOut hP (isFormula_skolemized hP hverum hfalsum hren hskolem ht s)

/-- the term of the form is a conjunction of disjunctions of literals -/
theorem isClausal_ofTerm : (ofTerm t s).1.term.IsClausal P :=
  Term.isClausal_standardizeApart hP hren (Term.isClausal_disjunctionsIn hP
    (isFormula_quantifierFree hP hverum hfalsum hren hskolem ht s)) _ _

end

/-- a formula has at least one clause, no literal of a clause is headed by a logical operator, and the
form's term is a conjunction of disjunctions of literals, nothing nested in its own kind -/
theorem clauses_atomic (t : Term) (ht : t.IsFormula Term.Plain .full) (s : Supply) :
    (ofTerm t s).1.clauses ≠ [] ∧
      (∀ c ∈ (ofTerm t s).1.clauses, ∀ x ∈ c.literals, x.hasOperatorHead = false) ∧
      (ofTerm t s).1.term.IsClausal Term.Plain := by
  have hterm : (ofTerm t s).1.term.IsClausal Term.Plain :=
    isClausal_ofTerm (fun _ h => h.nonlogical) Term.plain_verum Term.plain_falsum Term.Renames.plain
      (fun h _ hsk hu => h.substitute _ (Term.isIndividual_ofSkolem hsk hu).plain) ht s
  exact ⟨Term.clauses_ne_nil _, fun c hc x hx => (Term.atomic_clauses (fun _ h => h.nonlogical)
    Term.plain_verum hterm c hc x hx).hasOperatorHead, hterm⟩

/-- connectives without parts and with one part, below an arrow, a negation and a quantifier -/
def collapsing : Term :=
  .implies (.neg (.conj [])) (.quantified Quantifier.any.name ["?X"] (.disj [.app "p" [.atom "?X"]]))

theorem isFormula_collapsing : collapsing.IsFormula Term.Plain .full := by
  have hatom : (Term.app "p" [.atom "?X"]).Plain :=
    Term.plain_list (List.forall_mem_cons.mpr ⟨Term.plain_atom (by decide),
      List.forall_mem_singleton.mpr (Term.plain_atom (by decide))⟩)
  refine .implies trivial (.neg trivial (.conj fun x hx => absurd hx List.not_mem_nil)) ?_
  exact .quantified trivial (by decide) (.disj (List.forall_mem_singleton.mpr (.atomic hatom)))

theorem clauses_atomic_collapsing : collapsing.IsFormula Term.Plain .full ∧
    (ofTerm collapsing ⟨0⟩).1.clauses ≠ [] ∧
      (ofTerm collapsing ⟨0⟩).1.term.IsClausal Term.Plain :=
  have h := clauses_atomic collapsing isFormula_collapsing ⟨0⟩
  ⟨isFormula_collapsing, h.1, h.2.2⟩

end ClausalForm

end OntologyPrep
