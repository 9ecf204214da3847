import Mathlib.Data.List.Zip
import OntologyPrep.Proofs.Meaning.Clausification

/-!
# Clauses without common variables

* `Term.renameEach_spec`               terms renamed one after another get names of one run of draws, so
                                       that no two of them share a variable;
* `Term.operands_standardizeApart`     the conjuncts of a clausal form are those of the matrix, each
                                       renamed;
* `ClausalForm.standardized_apart`     no variable occurs in two clauses, and a conjunct without
                                       quantifiers is the conjunct of the matrix, its variables renamed
                                       one to one.

Nothing here asks for a well-formed formula: malformed quantifiers, heads that are variables and names
that look drawn are all allowed.
-/

namespace OntologyPrep

theorem le_total_of_mem {ns : List Nat} {n : Nat} (h : n ∈ ns) : n ≤ total ns := by
  induction ns with
  | nil => cases h
  | cons m ns ih =>
    rw [total_cons]
    rcases List.mem_cons.mp h with rfl | h
    · exact Nat.le_add_right _ _
    · exact Nat.le_add_left_of_le (ih h)

/-- a variable that is not for a row is a plain one, and the other way round -/
theorem Name.isPlainVariable_of_isVariable {a : String} (h : isVariable a = true) :
    isPlainVariable a = !isRowVariable a := by
  unfold isVariable isPlainVariable isRowVariable at *
  split at h <;> simp_all

namespace Term

/-! ## the variables of a renamed term -/

/-- every variable spelled another way -/
def mapVariables (t : Term) (ρ : String → String) : Term :=
  t.mapAtoms fun a => if Name.isVariable a then ρ a else a

theorem mapVariables_list (xs : List Term) (ρ : String → String) :
    (list xs).mapVariables ρ = .list (xs.map fun x => x.mapVariables ρ) := mapAtoms_list xs _

theorem mapVariables_constant {a : String} (ha : Name.isVariable a = false) (ρ : String → String) :
    (atom a).mapVariables ρ = .atom a := by
  rw [mapVariables, mapAtoms_atom, if_neg (by simp [ha])]

theorem mapVariables_apply (o : Operator) (args : List Term) (ρ : String → String) :
    (apply o args).mapVariables ρ = apply o (args.map fun x => x.mapVariables ρ) := by
  rw [apply, app, mapVariables_list, List.map_cons, mapVariables_constant o.not_isVariable]
  rfl

section

variable {ρ : String → String} {t t' : Term}

/-- a variable of a renamed term is a name that it binds, or the new name of a free variable -/
theorem Renames.mem_bound_or (h : Renames ρ t t') {a : String} (ha : a ∈ t'.atoms)
    (hv : Name.isVariable a = true) : a ∈ t'.bound ∨ ∃ b ∈ t.freeVariables, a = ρ b := by
  induction h with
  | const hconst =>
    rw [atoms_atom, List.mem_singleton] at ha
    rw [← ha, hv] at hconst
    cases hconst
  | @var ρ b hb _ =>
    rw [atoms_atom, List.mem_singleton] at ha
    exact .inr ⟨b, mem_freeVariables_atom.mpr ⟨hb, rfl⟩, ha⟩
  | @binder ρ b news body hlen _ _ ih =>
    have hmem : a ∈ news ∨ a ∈ body.atoms := by
      have hne : a ≠ b.quantifier.name :=
        Name.ne_operator_of_isVariable hv (.quant b.quantifier)
      simpa [quantified, app, hne] using ha
    rw [bound_quantified]
    rcases hmem with hmem | hmem
    · exact .inl (List.mem_append_left _ hmem)
    · rcases ih hmem with hbound | ⟨c, hc, rfl⟩
      · exact .inl (List.mem_append_right _ hbound)
      · by_cases hnames : c ∈ b.names
        · exact .inl (List.mem_append_left _ (rebind_mem hlen hnames))
        · exact .inr ⟨c, mem_freeVariables_binder.mpr ⟨hc, hnames⟩, rebind_of_not_mem hnames⟩
  | @list ρ xs ys hb hlen hzip ih =>
    rw [atoms_list] at ha
    obtain ⟨y, hy, ha⟩ := List.mem_flatMap.mp ha
    obtain ⟨x, hp⟩ := exists_mem_zip_right hlen hy
    rcases ih _ hp ha with hbound | ⟨c, hc, rfl⟩
    · refine .inl ?_
      rw [bound, boundBy_list _ (Renames.binder?_eq_none hb hlen hzip)]
      exact List.mem_flatMap.mpr ⟨y, hy, hbound⟩
    · exact .inr ⟨c, (mem_freeVariables_list hb).mpr ⟨x, (List.of_mem_zip hp).1, hc⟩, rfl⟩

/-- a renamed term is headed by the operator that headed the term -/
theorem Renames.operator?_eq (h : Renames ρ t t') : t'.operator? = t.operator? := by
  cases h with
  | const _ => rfl
  | var _ _ => rfl
  | binder _ _ _ => rfl
  | @list _ xs ys _ hlen hzip =>
    match xs, ys, hlen with
    | [], [], _ => rfl
    | x :: _, y :: _, _ =>
      have hhead : Renames ρ x y := hzip (x, y) (by simp)
      simp only [operator?, head?_list_cons]
      cases hhead with
      | const _ => rfl
      | var ha hv =>
        rw [name?_atom, name?_atom, Option.bind_some, Option.bind_some,
          Operator.ofName?_of_isVariable ha, Operator.ofName?_of_isVariable hv]
      | binder _ _ _ => rfl
      | list _ _ _ => rfl

theorem Renames.nonlogical (ht : t.Nonlogical) (h : Renames ρ t t') : t'.Nonlogical := by
  induction h with
  | const _ => exact ht
  | var _ _ => exact nonlogical_atom _
  | @binder _ b _ _ _ _ _ =>
    exact absurd ht (not_nonlogical_apply (.quant b.quantifier) [b.entries, b.body])
  | list hb hlen hzip ih =>
    have hparts := forall_mem_of_zip hlen fun p hp => ih p hp (ht.of_mem (List.of_mem_zip hp).1)
    refine nonlogical_list ?_ hparts
    rw [(Renames.list hb hlen hzip).operator?_eq]
    exact ht _ (self_mem_subterms _)

/-- without quantified formulas a renamed term is the term with another spelling for each variable, and
all variables are free -/
theorem Renames.of_binders (h : Renames ρ t t') (hbinders : t'.binders = 0) :
    t' = t.mapVariables ρ ∧
      ∀ a ∈ t.atoms, Name.isVariable a = true → a ∈ t.freeVariables := by
  induction h with
  | const hconst =>
    refine ⟨by rw [mapVariables, mapAtoms_atom, hconst]; rfl, fun a ha hv => ?_⟩
    rw [atoms_atom, List.mem_singleton] at ha
    rw [← ha, hv] at hconst
    cases hconst
  | var hb _ =>
    refine ⟨by rw [mapVariables, mapAtoms_atom, if_pos hb], fun a ha hv => ?_⟩
    rw [atoms_atom, List.mem_singleton] at ha
    exact mem_freeVariables_atom.mpr ⟨hb, ha⟩
  | @binder _ b news body _ _ _ _ =>
    have hlt := binders_body_lt (binder?_quantified b.quantifier news body)
    omega
  | @list ρ xs ys hb hlen hzip ih =>
    have hpart : ∀ p ∈ xs.zip ys, p.2.binders = 0 := fun p hp =>
      Nat.le_zero.mp (hbinders ▸ binders_le_of_mem (List.of_mem_zip hp).2)
    constructor
    · have hys : ys.map id = xs.map fun x => x.mapVariables ρ :=
        map_eq_map_of_zip hlen fun p hp => (ih p hp (hpart p hp)).1
      rw [List.map_id] at hys
      rw [mapVariables_list, hys]
    · intro a ha hv
      rw [atoms_list] at ha
      obtain ⟨x, hx, ha⟩ := List.mem_flatMap.mp ha
      obtain ⟨y, hp⟩ := exists_mem_zip_left hlen hx
      exact (mem_freeVariables_list hb).mpr ⟨x, hx, (ih _ hp (hpart _ hp)).2 a ha hv⟩

end

/-- every variable of a renamed term is one of the drawn names -/
theorem RenamedApart.mem_names {t t' : Term} {s s' : Supply} {names : List String}
    {added : List (String × String)} (h : RenamedApart t t' s s' names added) {a : String}
    (ha : a ∈ t'.atoms) (hv : Name.isVariable a = true) : a ∈ names := by
  refine h.perm.mem_iff.mpr (List.mem_append.mpr ?_)
  rcases h.renames.mem_bound_or ha hv with hbound | ⟨b, hb, rfl⟩
  · exact .inl hbound
  · exact .inr (h.mem_values hb)

/-- the second term is the first one renamed without mixing up variables, and each new name, a free one or
a bound one, is paired with the name that it replaces -/
structure RenamedAlong (pairs : List (String × String)) (ρ : String → String) (t t' : Term) : Prop where
  renames : Renames ρ t t'
  clear : Clear ρ t t'
  free : ∀ a ∈ t.freeVariables, (ρ a, a) ∈ pairs
  bound : ∀ p ∈ t'.bound.zip t.bound, p ∈ pairs

section

variable {pairs pairs' : List (String × String)} {ρ : String → String} {t t' : Term}

theorem RenamedAlong.mono (h : RenamedAlong pairs ρ t t') (hsub : ∀ p ∈ pairs, p ∈ pairs') :
    RenamedAlong pairs' ρ t t' :=
  ⟨h.renames, h.clear, fun a ha => hsub _ (h.free a ha), fun p hp => hsub p (h.bound p hp)⟩

theorem RenamedApart.along {s s' : Supply} {names : List String} {added : List (String × String)}
    (h : RenamedApart t t' s s' names added) (hdraws : t.renamingDraws < 2 ^ 32)
    (hbound : ∀ p ∈ t'.bound.zip t.bound, p ∈ pairs) (hadded : ∀ p ∈ added, (p.2, p.1) ∈ pairs) :
    RenamedAlong pairs (fun a => (added.lookup a).getD a) t t' where
  renames := h.renames
  clear := h.clear hdraws
  free a ha := by
    obtain ⟨n, hmem, hn⟩ := h.exists_lookup ha
    rw [hn]
    exact hadded _ hmem
  bound := hbound

/-- the parts of what an operator is applied to are renamed one by one -/
theorem RenamedAlong.exists_operands {o : Operator} (ho : Name.isQuantifier o.name = false)
    {args : List Term} (h : RenamedAlong pairs ρ (apply o args) t') : ∃ args', t' = apply o args' ∧
      args'.length = args.length ∧ ∀ p ∈ args.zip args', RenamedAlong pairs ρ p.1 p.2 := by
  obtain ⟨args', rfl, hlen, hzip⟩ := h.renames.exists_operands ho
  have hv : Name.isVariable o.name = false := o.not_isVariable
  have hfree : ∀ a, (∃ x ∈ args, a ∈ x.freeVariables) → a ∈ (apply o args).freeVariables :=
    fun a => (mem_freeVariables_app ho hv).mpr
  refine ⟨args', rfl, hlen, fun p hp => ⟨hzip p hp, ?_, fun a ha => ?_, fun q hq => ?_⟩⟩
  · exact h.clear.part (bound_app ho _) hfree hp
  · exact h.free a (hfree a ⟨p.1, (List.of_mem_zip hp).1, ha⟩)
  · refine h.bound q ?_
    rw [apply, apply, bound_app ho, bound_app ho]
    have hswap : (p.2, p.1) ∈ args'.zip args := by
      rw [← List.zip_swap]
      exact List.mem_map_of_mem hp
    refine mem_zip_flatMap (fun r hr => ?_) hswap hq
    have hr' : (r.2, r.1) ∈ args.zip args' := by
      rw [← List.zip_swap]
      exact List.mem_map_of_mem hr
    exact (hzip _ hr').length_boundBy _

/-- the body of a quantified formula is renamed with the new names for its bound ones -/
theorem RenamedAlong.exists_body {q : Quantifier} {names : List String} {body : Term}
    (h : RenamedAlong pairs ρ (quantified q.name names body) t') : ∃ news body',
      t' = quantified q.name news body' ∧ news.length = names.length ∧
      (∀ p ∈ news.zip names, p ∈ pairs) ∧ (∀ a ∈ body.freeVariables, a ∉ names → ρ a ∉ news) ∧
      RenamedAlong pairs (rebind ρ names news) body body' := by
  obtain ⟨news, body', rfl, hlen, -, hbody⟩ := h.renames.exists_body
  obtain ⟨-, hout, hclear⟩ := h.clear.body hlen
  have hbound := h.bound
  rw [bound_quantified, bound_quantified, List.zip_append hlen] at hbound
  refine ⟨news, body', rfl, hlen, fun p hp => hbound p (List.mem_append_left _ hp), hout, hbody, hclear,
    fun a ha => ?_, fun p hp => hbound p (List.mem_append_right _ hp)⟩
  by_cases hn : a ∈ names
  · exact hbound _ (List.mem_append_left _ (rebind_mem_zip hlen hn))
  · rw [rebind_of_not_mem hn]
    exact h.free a (mem_freeVariables_quantified.mpr ⟨ha, hn⟩)

end

/-- the second term is the first one with its variables renamed one to one, each to one of its kind -/
structure Respelled (ρ : String → String) (t t' : Term) : Prop where
  eq : t' = t.mapVariables ρ
  plain : ∀ a ∈ t.atoms, Name.isVariable a = true →
    Name.isPlainVariable (ρ a) = Name.isPlainVariable a
  row : ∀ a ∈ t.atoms, Name.isVariable a = true → Name.isRowVariable (ρ a) = Name.isRowVariable a
  inj : ∀ a ∈ t.atoms, ∀ b ∈ t.atoms, Name.isVariable a = true → Name.isVariable b = true →
    ρ a = ρ b → a = b

theorem RenamedApart.respelled {t t' : Term} {s s' : Supply} {names : List String}
    {added : List (String × String)} (h : RenamedApart t t' s s' names added)
    (hdraws : t.renamingDraws < 2 ^ 32) (hbinders : t'.binders = 0) :
    Respelled (fun a => (added.lookup a).getD a) t t' := by
  obtain ⟨heq, hfree⟩ := h.renames.of_binders hbinders
  have hrow : ∀ a ∈ t.atoms, Name.isVariable a = true →
      Name.isRowVariable ((added.lookup a).getD a) = Name.isRowVariable a :=
    fun a ha hv => h.isRowVariable (hfree a ha hv)
  refine ⟨heq, fun a ha hv => ?_, hrow, fun a ha b hb hva hvb => ?_⟩
  · have hnew : Name.isVariable ((added.lookup a).getD a) = true :=
      h.isVariable _ (h.perm.mem_iff.mpr (List.mem_append_right _ (h.mem_values (hfree a ha hv))))
    rw [Name.isPlainVariable_of_isVariable hnew, Name.isPlainVariable_of_isVariable hv,
      hrow a ha hv]
  · exact h.inj hdraws (hfree a ha hva) (hfree b hb hvb)

/-! ## terms renamed one after another -/

/-- no variable occurs in both terms -/
def VariablesApart (t u : Term) : Prop :=
  ∀ a, Name.isVariable a = true → a ∈ t.atoms → a ∉ u.atoms

/-- what renaming some terms one after another draws and makes of them: all variables are drawn names, each
linked to the name that it replaces and of its kind, and no two terms share one of them -/
structure RenamedEach (ts ts' : List Term) (links links' : RenameMap) (s s' : Supply)
    (pairs : List (String × String)) : Prop where
  drawn : s.Drawn (pairs.map Prod.fst) s'
  length : (pairs.map Prod.fst).length = total (ts.map renamingDraws)
  isVariable : ∀ n ∈ pairs.map Prod.fst, Name.isVariable n = true
  mem_names : ∀ t ∈ ts', ∀ a ∈ t.atoms, Name.isVariable a = true → a ∈ pairs.map Prod.fst
  apart : (pairs.map Prod.fst).Nodup → ts'.Pairwise VariablesApart
  links : links' = links.insertAll pairs
  linked : ∀ p ∈ pairs, ∃ t ∈ ts, p.2 ∈ t.atoms
  kinds : ∀ p ∈ pairs, Name.isRowVariable p.1 = Name.isRowVariable p.2
  along : total (ts.map renamingDraws) < 2 ^ 32 →
    ∀ p ∈ ts.zip ts', ∃ ρ, RenamedAlong pairs ρ p.1 p.2

theorem renameEach_spec (ts : List Term) (links : RenameMap) (s : Supply) :
    ∃ pairs, RenamedEach ts (renameEach ts links s).1.1 links (renameEach ts links s).1.2 s
      (renameEach ts links s).2 pairs := by
  induction ts generalizing links s with
  | nil =>
    exact ⟨[], .nil s, rfl, List.forall_mem_nil _, List.forall_mem_nil _, fun _ => .nil, rfl,
      List.forall_mem_nil _, List.forall_mem_nil _, fun _ => List.forall_mem_nil _⟩
  | cons t ts ih =>
    obtain ⟨pairs, added, hfirst, hlinks, hlinked, hbound, hadded⟩ := renameApart_links t links s
    obtain ⟨pairs', hrest⟩ := ih (t.renameApart links s).1.2 (t.renameApart links s).2
    refine ⟨pairs ++ pairs', ?_⟩
    constructor
    case drawn =>
      rw [List.map_append]
      exact hfirst.drawn.trans hrest.drawn
    case length =>
      rw [List.map_append, List.length_append, hfirst.length, hrest.length, List.map_cons,
        total_cons]
    case isVariable =>
      rw [List.map_append]
      exact List.forall_mem_append.mpr ⟨hfirst.isVariable, hrest.isVariable⟩
    case mem_names =>
      rw [List.map_append]
      refine List.forall_mem_cons.mpr ⟨fun a ha hv => ?_, fun u hu a ha hv => ?_⟩
      · exact List.mem_append_left _ (hfirst.mem_names ha hv)
      · exact List.mem_append_right _ (hrest.mem_names u hu a ha hv)
    case apart =>
      intro hnodup
      rw [List.map_append] at hnodup
      obtain ⟨_, hnodup', hdisjoint⟩ := List.nodup_append.mp hnodup
      refine List.pairwise_cons.mpr ⟨fun u hu a hv ha ha' => ?_, hrest.apart hnodup'⟩
      exact hdisjoint a (hfirst.mem_names ha hv) a (hrest.mem_names u hu a ha' hv) rfl
    case links =>
      rw [RenameMap.insertAll_append, ← hlinks]
      exact hrest.links
    case linked =>
      refine List.forall_mem_append.mpr ⟨fun p hp => ⟨t, List.mem_cons_self, (hlinked p hp).1⟩, ?_⟩
      intro p hp
      obtain ⟨u, hu, hmem⟩ := hrest.linked p hp
      exact ⟨u, List.mem_cons_of_mem _ hu, hmem⟩
    case kinds => exact List.forall_mem_append.mpr ⟨fun p hp => (hlinked p hp).2, hrest.kinds⟩
    case along =>
      intro hdraws
      rw [List.map_cons, total_cons] at hdraws
      refine List.forall_mem_cons.mpr ⟨⟨_, (hfirst.along (by omega) hbound hadded).mono ?_⟩, ?_⟩
      · exact fun p hp => List.mem_append_left _ hp
      · intro p hp
        obtain ⟨ρ, h⟩ := hrest.along (by omega) p hp
        exact ⟨ρ, h.mono fun p hp => List.mem_append_right _ hp⟩

/-- each of some terms is renamed apart -/
theorem renameEach_zip (ts : List Term) (links : RenameMap) (s : Supply) :
    (renameEach ts links s).1.1.length = ts.length ∧
      ∀ p ∈ ts.zip (renameEach ts links s).1.1,
        ∃ s s' names added, RenamedApart p.1 p.2 s s' names added := by
  induction ts generalizing links s with
  | nil => exact ⟨rfl, fun p hp => by cases hp⟩
  | cons t ts ih =>
    obtain ⟨names, added, hfirst⟩ := renameApart_spec t links s
    obtain ⟨hlen, hzip⟩ := ih (t.renameApart links s).1.2 (t.renameApart links s).2
    exact ⟨congrArg (· + 1) hlen, List.forall_mem_cons.mpr ⟨⟨_, _, names, added, hfirst⟩, hzip⟩⟩

/-- the conjuncts of a formula whose conjuncts get variables of their own are its conjuncts renamed -/
theorem operands_standardizeApart (t : Term) (links : RenameMap) (s : Supply) :
    (t.standardizeApart links s).1.1.operands .conj = (renameEach (t.operands .conj) links s).1.1 := by
  by_cases hconj : t.operator? = some .conj
  · rw [standardizeApart, if_pos hconj, operands.eq_def .conj t, if_pos hconj]
    rfl
  · obtain ⟨_, _, hspec⟩ := renameApart_spec t links s
    rw [standardizeApart, if_neg hconj, operands.eq_def .conj t, if_neg hconj, operands,
      hspec.renames.operator?_eq, if_neg hconj]
    rfl

end Term

/-! ## clauses -/

/-- the atom occurs in a literal of the clause -/
def Clause.Mentions (c : Clause) (a : String) : Prop := ∃ x ∈ c.literals, a ∈ x.atoms

namespace Term

/-- a variable of a clause is one of the disjunction that the clause is made of -/
theorem mem_atoms_of_mentions {t : Term} {a : String} (hv : Name.isVariable a = true)
    (h : (Clause.ofLiterals (t.operands .disj)).Mentions a) : a ∈ t.atoms := by
  obtain ⟨x, hx, ha⟩ := h
  have hover : t.Over (· ∈ t.atoms) := fun b hb => .inl hb
  exact (over_ofLiterals (over_operands hover) x hx).of_isVariable ha hv

/-- a variable of a clause is one of a conjunct -/
theorem exists_operand_of_mentions {t : Term} {c : Clause} (hc : c ∈ t.clauses) {a : String}
    (hv : Name.isVariable a = true) (ha : c.Mentions a) : ∃ x ∈ t.operands .conj, a ∈ x.atoms := by
  unfold clauses at hc
  split at hc
  · rw [List.mem_singleton] at hc
    obtain ⟨x, hx, hmem⟩ := hc ▸ ha
    have hverum : ∀ u ∈ [verum], u.Over fun _ => False := List.forall_mem_singleton.mpr over_verum
    exact ((over_ofLiterals hverum x hx).of_isVariable hmem hv).elim
  · obtain ⟨x, hx, rfl⟩ := List.mem_map.mp hc
    exact ⟨x, hx, mem_atoms_of_mentions hv ha⟩

/-- conjuncts without common variables give clauses without common variables -/
theorem clauses_apart {t : Term} (h : (t.operands .conj).Pairwise VariablesApart) :
    t.clauses.Pairwise fun c d =>
      ∀ a, Name.isVariable a = true → c.Mentions a → ¬ d.Mentions a := by
  unfold clauses
  split
  · exact List.pairwise_singleton _ _
  · refine List.pairwise_map.mpr (h.imp fun hapart a hv hc hd => ?_)
    exact hapart a hv (mem_atoms_of_mentions hv hc) (mem_atoms_of_mentions hv hd)

end Term

namespace ClausalForm

/-- no variable occurs in two clauses of a run that takes fewer names than the counter has values
(`supply_ofTerm`), and each conjunct of the form without quantified formulas is the conjunct of the
matrix at its place, the variables renamed one to one and each to one of its kind -/
theorem standardized_apart (t : Term) (s : Supply) (hdraws : draws t s < 2 ^ 32) :
    ((ofTerm t s).1.clauses.Pairwise fun c d =>
        ∀ a, Name.isVariable a = true → c.Mentions a → ¬ d.Mentions a) ∧
      ((ofTerm t s).1.term.operands .conj).length = ((matrix t s).operands .conj).length ∧
      ∀ p ∈ ((matrix t s).operands .conj).zip ((ofTerm t s).1.term.operands .conj),
        p.2.binders = 0 → ∃ ρ, Term.Respelled ρ p.1 p.2 := by
  have htotal : total (((matrix t s).operands .conj).map Term.renamingDraws) < 2 ^ 32 := by
    rw [draws] at hdraws
    omega
  have hterm : (ofTerm t s).1.term.operands .conj =
      (Term.renameEach ((matrix t s).operands .conj) (renamed t s).1.2 (skolemized t s).2).1.1 := by
    rw [ofTerm_eq]
    exact Term.operands_standardizeApart _ _ _
  obtain ⟨_, hspec⟩ := Term.renameEach_spec ((matrix t s).operands .conj) (renamed t s).1.2
    (skolemized t s).2
  obtain ⟨hlen, hzip⟩ := Term.renameEach_zip ((matrix t s).operands .conj)
    (renamed t s).1.2 (skolemized t s).2
  refine ⟨Term.clauses_apart ?_, ?_, ?_⟩
  · rw [hterm]
    exact hspec.apart (hspec.drawn.nodup (hspec.length ▸ htotal))
  · rw [hterm, hlen]
  · rw [hterm]
    intro p hp hbinders
    obtain ⟨_, _, _, _, hrenamed⟩ := hzip p hp
    refine ⟨_, hrenamed.respelled (Nat.lt_of_le_of_lt ?_ htotal) hbinders⟩
    exact le_total_of_mem (List.mem_map_of_mem (List.of_mem_zip hp).1)

/-- two conjuncts with the same variables, named as a run would name them -/
def sharing : Term :=
  .conj [.app "p" [.atom "?VAR1", .atom "@VAR2"], .app "q" [.atom "?VAR1", .atom "@VAR2"]]

/-- the counter comes round during the run -/
theorem standardized_apart_sharing : draws sharing ⟨4294967294⟩ < 2 ^ 32 ∧
    (ofTerm sharing ⟨4294967294⟩).1.clauses.Pairwise fun c d =>
      ∀ a, Name.isVariable a = true → c.Mentions a → ¬ d.Mentions a := by
  have hdraws : draws sharing ⟨4294967294⟩ < 2 ^ 32 := by
    have h : draws sharing ⟨4294967294⟩ = 6 := by cbv
    rw [h]
    decide
  exact ⟨hdraws, (standardized_apart sharing ⟨4294967294⟩ hdraws).1⟩

end ClausalForm

end OntologyPrep
