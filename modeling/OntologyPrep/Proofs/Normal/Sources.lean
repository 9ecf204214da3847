import OntologyPrep.Proofs.Normal.Apart
import OntologyPrep.Proofs.Normal.Mirror

/-!
# Where the variables of a clausal form come from

A variable of a clausal form is linked to the name that it replaced in the matrix, and that one, if it is a
variable, to the one that it replaced in the formula.  If no name of the formula looks drawn and the counter
does not come round, no later link hides an earlier one, and the links lead back to a name that does not
look drawn (`ClausalForm.not_draws_source`).
-/

namespace OntologyPrep

/-! ## links -/

namespace RenameMap

variable {m : RenameMap}

theorem previous?_insert_of_ne {new a : String} (h : a ≠ new) (old : String) :
    (m.insert new old).previous? a = m.previous? a := by
  by_cases he : new = old
  · rw [insert, if_pos he]
  · rw [previous?_insert m he, if_neg (Ne.symm h)]

theorem previous?_insertAll_of_not_mem {pairs : List (String × String)} {a : String}
    (h : a ∉ pairs.map Prod.fst) : (m.insertAll pairs).previous? a = m.previous? a := by
  induction pairs generalizing m with
  | nil => rfl
  | cons p pairs ih =>
    rw [List.map_cons, List.mem_cons, not_or] at h
    exact (ih h.2).trans (previous?_insert_of_ne h.1 p.2)

/-- no link hides another one if each is of a name of its own -/
theorem previous?_insertAll {pairs : List (String × String)}
    (hnodup : (pairs.map Prod.fst).Nodup) {new old : String} (hmem : (new, old) ∈ pairs)
    (hne : new ≠ old) : (m.insertAll pairs).previous? new = some old := by
  induction pairs generalizing m with
  | nil => cases hmem
  | cons p pairs ih =>
    rw [List.map_cons, List.nodup_cons] at hnodup
    rcases List.mem_cons.mp hmem with rfl | hmem
    · refine (previous?_insertAll_of_not_mem hnodup.1).trans ?_
      rw [previous?_insert m hne, if_pos rfl]
    · exact ih hnodup.2 hmem

theorem previous?_empty (a : String) : RenameMap.empty.previous? a = none := by
  simp [previous?, empty]

theorem size_pos_of_previous? {a b : String} (h : m.previous? a = some b) : 0 < m.size := by
  refine Nat.pos_of_ne_zero fun hzero => ?_
  have hempty : m.links.isEmpty = true := by
    rw [Std.TreeMap.isEmpty_eq_size_eq_zero]
    exact beq_iff_eq.mpr hzero
  have hnone := Std.TreeMap.getElem?_of_isEmpty hempty (a := a)
  rw [previous?, hnone] at h
  cases h

theorem resolve_of_link {a b : String} (ha : m.previous? a = some b)
    (hb : m.previous? b = none) : m.resolve a = b := by
  rw [resolve, follow, ha]
  exact follow_of_previous?_eq_none hb _

theorem resolve_of_links {a b c : String} (ha : m.previous? a = some b)
    (hb : m.previous? b = some c) (hc : m.previous? c = none) : m.resolve a = c := by
  obtain ⟨hops, hsize⟩ := Nat.exists_eq_succ_of_ne_zero (Nat.pos_iff_ne_zero.mp
    (size_pos_of_previous? ha))
  rw [resolve, follow, ha, hsize]
  show m.follow (hops + 1) b = c
  rw [follow, hb]
  exact follow_of_previous?_eq_none hc _

end RenameMap

/-! ## the variables of the matrix -/

namespace Term

variable {names : String → Prop}

section

variable (hskolem : ∀ a, Name.isSkolem a = true → names a)

include hskolem

theorem over_skolem {universals : List String} (hu : ∀ u ∈ universals, (atom u).Over names)
    (s : Supply) : (Supply.skolem universals s).1.Over names := by
  rw [Supply.skolem_eq]
  intro a ha
  rcases mem_atoms_ofSkolem ha with rfl | ha
  · exact .inl (hskolem _ (Supply.isSkolem_skolemSymbol universals s))
  · exact hu a ha a (by simp)

theorem over_skolemizeNames {universals : List String} (hu : ∀ u ∈ universals, (atom u).Over names)
    (bound : List String) {body : Term} (hbody : body.Over names) (s : Supply) :
    (skolemizeNames universals bound body s).1.Over names := by
  induction bound generalizing body s with
  | nil => exact hbody
  | cons name bound ih =>
    rw [skolemizeNames, State.bind_apply]
    exact ih (over_substitute hbody name (over_skolem hskolem hu s)) _

theorem over_skolemize {universals : List String} (hu : ∀ u ∈ universals, (atom u).Over names)
    {t : Term} (ht : t.Over names) (s : Supply) : (t.skolemize universals s).1.Over names := by
  induction universals, t using skolemize.induct generalizing s with
  | case1 universals a =>
    rw [skolemize]
    exact ht
  | case2 universals items b hb hall ih =>
    rw [binder?_eq_some_iff.mp hb] at ht ⊢
    obtain ⟨hnames, hbody⟩ := over_binder ht
    rw [skolemize_binder_all _ hall]
    refine over_apply_pair (o := .quant .all) (over_list.mpr (List.forall_mem_map.mpr hnames)) ?_
    exact ih (List.forall_mem_append.mpr ⟨hu, hnames⟩) hbody s
  | case3 universals items b hb hany ih =>
    rw [binder?_eq_some_iff.mp hb] at ht ⊢
    rw [skolemize_binder_any _ hany]
    exact ih s hu (over_skolemizeNames hskolem hu b.names (over_binder ht).2 s) _
  | case4 universals items hb ih =>
    rw [skolemize_list _ hb]
    exact over_list.mpr (State.forall_mem_mapM (fun x hx s => ih x hx hu (over_list.mp ht x hx) s) s)

end

theorem links_standardizeApart (t : Term) (links : RenameMap) (s : Supply) :
    (t.standardizeApart links s).1.2 = (renameEach (t.operands .conj) links s).1.2 := by
  by_cases hconj : t.operator? = some .conj
  · rw [standardizeApart, if_pos hconj, operands, if_pos hconj]
    rfl
  · rw [standardizeApart, if_neg hconj, operands, if_neg hconj]
    rfl

end Term

namespace ClausalForm

open Term

variable {t : Term} {s : Supply} {first second : List (String × String)}

/-- the steps after the first renaming bring no variables -/
theorem mem_atoms_renamed {a : String} (ha : a ∈ (matrix t s).atoms)
    (hv : Name.isVariable a = true) : a ∈ (renamed t s).1.1.atoms := by
  have hskolem : ∀ f, Name.isSkolem f = true → Name.isVariable f = true →
      f ∈ (renamed t s).1.1.atoms := by
    intro f hf hfv
    rw [(Name.isConstant_of_isSkolem hf).1] at hfv
    cases hfv
  have hover : (renamed t s).1.1.Over fun b =>
      Name.isVariable b = true → b ∈ (renamed t s).1.1.atoms := fun b hb => .inl fun _ => hb
  refine (over_disjunctionsIn (over_universalsOut (over_skolemize hskolem (fun u hu => ?_) hover
    (renamed t s).2))).of_isVariable ha hv hv
  exact hover.atom (mem_atoms_of_mem_freeVariables hu)

/-- the names that a run draws for variables: first for those of the normal form, then for those of the
conjuncts of the matrix, each with the name that it replaces -/
structure Linked (t : Term) (s : Supply) (first second : List (String × String)) : Prop where
  links : (ofTerm t s).1.links = (RenameMap.empty.insertAll first).insertAll second
  drawn : ∀ n ∈ first.map Prod.fst ++ second.map Prod.fst, ∃ stem ∈ Supply.stems, ∃ i, 0 < i ∧
    i ≤ draws t s ∧ n = stem ++ (s.after i).index
  isVariable : ∀ n ∈ first.map Prod.fst ++ second.map Prod.fst, Name.isVariable n = true
  nodup : (first.map Prod.fst ++ second.map Prod.fst).Nodup
  kinds : ∀ p ∈ first ++ second, Name.isRowVariable p.1 = Name.isRowVariable p.2
  mem_normal : ∀ p ∈ first, p.2 ∈ (normal t).atoms
  mem_first : ∀ p ∈ second, Name.isVariable p.2 = true → p.2 ∈ first.map Prod.fst
  mem_second : ∀ x ∈ (ofTerm t s).1.term.operands .conj, ∀ a ∈ x.atoms,
    Name.isVariable a = true → a ∈ second.map Prod.fst
  along_first : ∃ ρ, RenamedAlong first ρ (normal t) (renamed t s).1.1
  along_second : ∀ p ∈ ((matrix t s).operands .conj).zip ((ofTerm t s).1.term.operands .conj),
    ∃ ρ, RenamedAlong second ρ p.1 p.2

theorem exists_linked (hdraws : draws t s < 2 ^ 32) : ∃ first second, Linked t s first second := by
  obtain ⟨first, _, hfirst, hlinks, hold, hbound, hadded⟩ := renameApart_links (normal t) .empty s
  obtain ⟨second, hsecond⟩ := renameEach_spec ((matrix t s).operands .conj) (renamed t s).1.2
    (skolemized t s).2
  have hsupply : (skolemized t s).2 =
      (renamed t s).2.after (renamed t s).1.1.existentials.length :=
    supply_skolemize _ hfirst.renames.isVariable_of_mem_bound _
  have hdrawn := hsecond.drawn
  rw [hsupply] at hdrawn
  have htotal : draws t s = (first.map Prod.fst).length + (renamed t s).1.1.existentials.length +
      (second.map Prod.fst).length := by
    rw [ClausalForm.draws, ← hfirst.length, ← hsecond.length]
  refine ⟨first, second, ?_⟩
  constructor
  case links =>
    rw [ofTerm_eq, ← hlinks]
    exact (links_standardizeApart _ _ _).trans hsecond.links
  case drawn =>
    refine List.forall_mem_append.mpr ⟨fun n hn => ?_, fun n hn => ?_⟩
    · obtain ⟨stem, hstem, i, hpos, hle, he⟩ := hfirst.drawn.exists_of_mem hn
      exact ⟨stem, hstem, i, hpos, by omega, he⟩
    · obtain ⟨stem, hstem, i, hpos, hle, he⟩ := hdrawn.exists_of_mem hn
      have hafter : (renamed t s).2 = s.after (first.map Prod.fst).length := hfirst.drawn.eq_after
      rw [hafter, Supply.after_after, Supply.after_after] at he
      exact ⟨stem, hstem, _, by omega, by omega, he⟩
  case isVariable => exact List.forall_mem_append.mpr ⟨hfirst.isVariable, hsecond.isVariable⟩
  case nodup =>
    refine List.nodup_append.mpr ⟨hfirst.drawn.nodup (by omega), hdrawn.nodup (by omega), ?_⟩
    rintro a ha _ ha' rfl
    exact hfirst.drawn.not_mem_of_after hdrawn (by omega) ha ha'
  case kinds => exact List.forall_mem_append.mpr ⟨fun p hp => (hold p hp).2, hsecond.kinds⟩
  case mem_normal => exact fun p hp => (hold p hp).1
  case mem_first =>
    intro p hp hv
    obtain ⟨x, hx, ha⟩ := hsecond.linked p hp
    have hover : (matrix t s).Over (· ∈ (matrix t s).atoms) := fun b hb => .inl hb
    exact hfirst.mem_names (mem_atoms_renamed ((over_operands hover x hx).of_isVariable ha hv) hv) hv
  case mem_second =>
    rw [ofTerm_eq]
    rw [operands_standardizeApart]
    exact hsecond.mem_names
  case along_first =>
    refine ⟨_, hfirst.along ?_ hbound hadded⟩
    rw [← hfirst.length]
    omega
  case along_second =>
    rw [ofTerm_eq]
    rw [operands_standardizeApart]
    refine hsecond.along ?_
    rw [← hsecond.length]
    omega

theorem Linked.draws (h : Linked t s first second) :
    ∀ n ∈ first.map Prod.fst ++ second.map Prod.fst, Supply.Draws n := by
  intro n hn
  obtain ⟨stem, hstem, i, -, -, rfl⟩ := h.drawn n hn
  exact ⟨(stem, (s.after i).counter), hstem, rfl⟩

theorem Linked.previous?_first (h : Linked t s first second) {c b : String} (hcb : (c, b) ∈ first)
    (hne : c ≠ b) : (ofTerm t s).1.links.previous? c = some b := by
  obtain ⟨hnodup, _, hdisjoint⟩ := List.nodup_append.mp h.nodup
  have hc : c ∈ first.map Prod.fst := List.mem_map_of_mem hcb
  rw [h.links, RenameMap.previous?_insertAll_of_not_mem fun hc' => hdisjoint c hc c hc' rfl]
  exact RenameMap.previous?_insertAll hnodup hcb hne

theorem Linked.previous?_second (h : Linked t s first second) {a c : String}
    (hac : (a, c) ∈ second) (hne : a ≠ c) : (ofTerm t s).1.links.previous? a = some c := by
  rw [h.links]
  exact RenameMap.previous?_insertAll (List.nodup_append.mp h.nodup).2.1 hac hne

theorem Linked.previous?_eq_none (h : Linked t s first second) {c : String}
    (hc : c ∉ first.map Prod.fst ++ second.map Prod.fst) :
    (ofTerm t s).1.links.previous? c = none := by
  rw [List.mem_append, not_or] at hc
  rw [h.links, RenameMap.previous?_insertAll_of_not_mem hc.2,
    RenameMap.previous?_insertAll_of_not_mem hc.1, RenameMap.previous?_empty]

/-- a variable of a conjunct leads back to a bound name that is no variable, or in two steps to a name
of the normal form, if no variable of that looks drawn -/
theorem Linked.source_eq (h : Linked t s first second)
    (hnames : ∀ b ∈ (normal t).atoms, Name.isVariable b = true → ¬ Supply.Draws b) {a c : String}
    (hac : (a, c) ∈ second) :
    (Name.isVariable c = false ∧ (ofTerm t s).1.source a = c) ∨
      ∃ b, (c, b) ∈ first ∧ (ofTerm t s).1.source a = b := by
  have ha : a ∈ second.map Prod.fst := List.mem_map_of_mem hac
  cases hc : Name.isVariable c with
  | false =>
    have hne : a ≠ c := Name.ne_of_isVariable (h.isVariable a (List.mem_append_right _ ha)) hc
    have hlast := h.previous?_eq_none (c := c) fun hmem => by
      rw [h.isVariable c hmem] at hc
      cases hc
    exact .inl ⟨rfl, RenameMap.resolve_of_link (h.previous?_second hac hne) hlast⟩
  | true =>
    have hcfirst := h.mem_first (a, c) hac hc
    obtain ⟨⟨c', b⟩, hcb, rfl⟩ := List.mem_map.mp hcfirst
    -- drawn names are variables, so that a name that looks drawn but is none has no link either
    have hb : b ∉ first.map Prod.fst ++ second.map Prod.fst := fun hmem =>
      hnames b (h.mem_normal (c', b) hcb) (h.isVariable b hmem) (h.draws b hmem)
    have hne : a ≠ c' := fun he => (List.nodup_append.mp h.nodup).2.2 c' hcfirst a ha he.symm
    have hne' : c' ≠ b := fun he => hb (he ▸ List.mem_append_left _ hcfirst)
    exact .inr ⟨b, hcb, RenameMap.resolve_of_links (h.previous?_second hac hne)
      (h.previous?_first hcb hne') (h.previous?_eq_none hb)⟩

theorem not_draws_normal (hnames : ∀ a ∈ t.atoms, ¬ Supply.Draws a) :
    ∀ a ∈ (normal t).atoms, ¬ Supply.Draws a := by
  have hover : t.Over fun a => ¬ Supply.Draws a := fun a ha => .inl (hnames a ha)
  intro a ha
  rcases over_negationsIn (over_implicationsOut (over_equivalencesOut hover)) a ha with
    h | hop | rfl | rfl
  · exact h
  · obtain ⟨o, ho⟩ := Option.isSome_iff_exists.mp hop
    rw [← Operator.name_of_ofName? ho]
    exact Supply.not_draws_operator o
  · exact Supply.not_draws_truth.1
  · exact Supply.not_draws_truth.2

/-- if no name of the formula looks drawn, no variable leads back to another one that does -/
theorem not_draws_source (hnames : ∀ a ∈ t.atoms, ¬ Supply.Draws a) (hdraws : draws t s < 2 ^ 32)
    {c : Clause} (hc : c ∈ (ofTerm t s).1.clauses) {a : String} (ha : c.Mentions a)
    (hv : Name.isVariable a = true)
    (hsource : Name.isVariable ((ofTerm t s).1.source a) = true) :
    ¬ Supply.Draws ((ofTerm t s).1.source a) := by
  obtain ⟨first, second, h⟩ := exists_linked hdraws
  obtain ⟨x, hx, hmem⟩ := exists_operand_of_mentions hc hv ha
  obtain ⟨⟨a', c⟩, hac, rfl⟩ := List.mem_map.mp (h.mem_second x hx a hmem hv)
  have hnormal := not_draws_normal hnames
  rcases h.source_eq (fun b hb _ => hnormal b hb) hac with ⟨hc, he⟩ | ⟨b, hcb, he⟩
  · rw [he, hc] at hsource
    cases hsource
  · rw [he]
    exact hnormal b (h.mem_normal (c, b) hcb)

end ClausalForm

end OntologyPrep
