import OntologyPrep.Predicate.Instantiation
import OntologyPrep.Proofs.Knowledge.Matching
import OntologyPrep.Proofs.Normal.Sources

/-!
# What the supply has to do with the instances

The questions about a predicate variable are asked in the variables of the formula, so that the names
drawn for its clausal form should not matter.  They do not if no name of the formula looks drawn
(`Term.instantiatePredicates_supply`).  If one does, the links may lead from a variable to another one of
the formula, and the formula may be rejected after some draws and have instances after others
(`Term.not_instantiatePredicates_supply`).
-/

namespace OntologyPrep

/-- a drawn name is a variable or a Skolem symbol -/
theorem Supply.Draws.isVariable_or {a : String} (h : Draws a) :
    Name.isVariable a = true ∨ Name.isSkolem a = true := by
  obtain ⟨⟨stem, n⟩, hstem, rfl⟩ := h
  revert hstem stem
  refine forall_stems.mpr ⟨.inl ?_, .inl ?_, .inr ?_, .inr ?_⟩
  · simp [spelled, Name.isVariable, Name.isPlainVariable]
  · simp [spelled, Name.isVariable, Name.isRowVariable]
  · exact Name.isSkolem_constant _
  · exact Name.isSkolem_function _

/-! ## the links of a mirrored run -/

section

variable {f : String → String} {m m' : RenameMap} (h : TableMirrors f m.links m'.links)

include h

theorem RenameMap.follow_mirrors (hops : Nat) (a : String) :
    m'.follow hops (f a) = f (m.follow hops a) := by
  induction hops generalizing a with
  | zero => rfl
  | succ hops ih =>
    rw [follow, follow, show m'.previous? (f a) = (m.previous? a).map f from h.1 a]
    cases m.previous? a with
    | none => rfl
    | some b => exact ih b

theorem RenameMap.resolve_mirrors (a : String) : m'.resolve (f a) = f (m.resolve a) := by
  rw [resolve, resolve, show m'.size = m.size from h.2]
  exact follow_mirrors h _ a

end

/-! ## the questions of a mirrored run -/

namespace ClausalForm

section

variable {f : String → String} (hf : Respelling f) {form form' : ClausalForm}
  (hlinks : TableMirrors f form.links.links form'.links.links)

include hf hlinks

theorem inSources_mirrors (t : Term) :
    form'.inSources (t.respell f) = (form.inSources t).respell f := by
  refine (Term.respell_respell f _ t).trans (Eq.trans ?_ (Term.respell_respell _ f t).symm)
  refine Term.respell_congr fun a _ => ?_
  have hsource : form'.source (f a) = f (form.source a) := RenameMap.resolve_mirrors hlinks a
  simp only [hf.isVariable a, hsource]
  cases Name.isVariable a <;> rfl

end

/-- a literal with a Skolem symbol is no question -/
theorem not_asked_of_containsSkolem (kb : KnowledgeBase) (name : String) {t : Term}
    (h : t.containsSkolem = true) :
    (Literal.ofTerm? t).filter (Literal.asksAbout kb name) = none := by
  cases hl : Literal.ofTerm? t with
  | none => rfl
  | some l =>
    obtain ⟨r, hr, rfl⟩ := Option.map_eq_some_iff.mp hl
    have hterm : (Literal.mk r t.args).toTerm = t := (Literal.eq_of_head? hr).symm
    rw [Option.filter_some, if_neg]
    simp [Literal.asksAbout, hterm, h]

/-- respelling drawn names changes no question if no variable of the question looks drawn -/
theorem asked_respell {f : String → String} (hfix : ∀ a, ¬ Supply.Draws a → f a = a)
    (hskolem : ∀ a, Name.isSkolem (f a) = Name.isSkolem a) (kb : KnowledgeBase) (name : String)
    {t : Term} (ht : ∀ a ∈ t.atoms, Name.isVariable a = true → ¬ Supply.Draws a) :
    (Literal.ofTerm? (t.respell f)).filter (Literal.asksAbout kb name) =
      (Literal.ofTerm? t).filter (Literal.asksAbout kb name) := by
  cases h : t.containsSkolem with
  | true =>
    have h' : (t.respell f).containsSkolem = true := by
      rw [Term.containsSkolem, Term.atoms_respell, List.any_map, ← h, Term.containsSkolem]
      exact congrArg (t.atoms.any ·) (funext hskolem)
    rw [not_asked_of_containsSkolem kb name h, not_asked_of_containsSkolem kb name h']
  | false =>
    rw [Term.respell_eq_self fun a ha => hfix a fun hdraws => ?_]
    rcases hdraws.isVariable_or with hv | hs
    · exact ht a ha hv hdraws
    · exact List.any_eq_false.mp h a ha hs

variable {t : Term} {s : Supply}

/-- no variable of a literal in the variables of the formula looks drawn -/
theorem not_draws_inSources (hnames : ∀ a ∈ t.atoms, ¬ Supply.Draws a) (hdraws : draws t s < 2 ^ 32)
    {c : Clause} (hc : c ∈ (ofTerm t s).1.clauses) {x : Term} (hx : x ∈ c.literals) :
    ∀ a ∈ ((ofTerm t s).1.inSources x).atoms, Name.isVariable a = true → ¬ Supply.Draws a := by
  intro a ha hv
  rw [inSources, ← Term.respell, Term.atoms_respell] at ha
  obtain ⟨b, hb, rfl⟩ := List.mem_map.mp ha
  split at hv
  · next hbv => exact not_draws_source hnames hdraws hc ⟨x, hx, hb⟩ hbv hv
  · next hbv => exact absurd hv (Bool.eq_false_iff.mp hbv)

/-- the questions about a variable are the same after any other draws, if no name of the formula looks
drawn -/
theorem questions_supply (hnames : ∀ a ∈ t.atoms, ¬ Supply.Draws a)
    (hdraws : draws t s < 2 ^ 32) (kb : KnowledgeBase) (name : String) (s' : Supply) :
    (ofTerm t s').1.questions kb name = (ofTerm t s).1.questions kb name := by
  obtain ⟨f, hf, hs, hfix, hskolem⟩ := Supply.exists_respelling s s'
  obtain ⟨hterm, hlinks⟩ := ofTerm_mirrors hf hs t
  rw [Term.respell_eq_self fun a ha => hfix a (hnames a ha)] at hterm hlinks
  have hclauses : (ofTerm t s').1.clauses = (ofTerm t s).1.clauses.map (Clause.respell f) := by
    rw [clauses, hterm, hf.clauses]
    rfl
  have hamong : ∀ kind, (∀ c : Clause, kind (c.respell f) = (kind c).map (Term.respell f)) →
      (∀ (c : Clause), ∀ x ∈ kind c, x ∈ c.literals) →
      (ofTerm t s').1.questionsAmong kb name kind = (ofTerm t s).1.questionsAmong kb name kind := by
    intro kind hkind hliterals
    have hkinds : ((ofTerm t s).1.clauses.map (Clause.respell f)).flatMap kind =
        ((ofTerm t s).1.clauses.flatMap kind).map (Term.respell f) := by
      rw [List.flatMap_map, List.map_flatMap, funext hkind]
    rw [questionsAmong, questionsAmong, hclauses, hkinds, List.filterMap_map,
      List.filter_filterMap, List.filter_filterMap]
    have hasked : ∀ x ∈ (ofTerm t s).1.clauses.flatMap kind,
        (Literal.ofTerm? ((ofTerm t s').1.inSources (x.respell f))).filter
            (Literal.asksAbout kb name) =
          (Literal.ofTerm? ((ofTerm t s).1.inSources x)).filter (Literal.asksAbout kb name) := by
      intro x hx
      obtain ⟨c, hc, hxc⟩ := List.mem_flatMap.mp hx
      rw [inSources_mirrors hf hlinks]
      exact asked_respell hfix hskolem kb name
        (not_draws_inSources hnames hdraws hc (hliterals c x hxc))
    have hmap := congrArg (List.filterMap id) (List.map_congr_left hasked)
    rw [List.filterMap_map, List.filterMap_map] at hmap
    exact congrArg Distinct.ofList hmap
  rw [questions, questions,
    hamong Clause.negative (fun c => rfl) fun c x hx => List.mem_append_left _ hx,
    hamong Clause.positive (fun c => rfl) fun c x hx => List.mem_append_right _ hx]

end ClausalForm

namespace Term

theorem joins_congr {kb : KnowledgeBase} {form form' : ClausalForm} (vars : PredicateVariables)
    (h : ∀ name, form'.questions kb name = form.questions kb name) :
    joins kb form' vars = joins kb form vars := by
  have hjoin : Join.ofVariable kb form' = Join.ofVariable kb form := by
    funext name use
    rw [Join.ofVariable, Join.ofVariable, ClausalForm.templates, ClausalForm.templates, h]
  rw [joins, joins, hjoin]

/-- if no name of the formula looks drawn and the counter does not come round in one of the runs, the
instances are the same after any other draws -/
theorem instantiatePredicates_supply (kb : KnowledgeBase) (t : Term)
    (hnames : ∀ a ∈ t.atoms, ¬ Supply.Draws a) (s s' : Supply)
    (hdraws : ClausalForm.draws t s < 2 ^ 32) :
    (t.instantiatePredicates kb s').1 = (t.instantiatePredicates kb s).1 := by
  have hjoins := joins_congr (t.predicateVariables kb)
    fun name => ClausalForm.questions_supply hnames hdraws kb name s'
  unfold instantiatePredicates
  split
  · show t.instances kb _ (ClausalForm.ofTerm t s').1 = t.instances kb _ (ClausalForm.ofTerm t s).1
    rw [instances, instances, hjoins]
  · rfl

/-- an applied variable that looks drawn, and what may take its place -/
def drawnLooking : Term :=
  implies (app "instance" [.atom "?VAR2", .atom "B"]) (app "?VAR2" [.atom "a"])

/-- the second renaming may draw the name that the formula uses, and its link then hides the one that leads
back to it: the same formula is rejected without any draws before and has an instance after one -/
theorem not_instantiatePredicates_supply : ¬ ∀ (kb : KnowledgeBase) (t : Term) (s s' : Supply),
    s.counter.toNat + ClausalForm.draws t s < 2 ^ 32 →
    s'.counter.toNat + ClausalForm.draws t s' < 2 ^ 32 →
    (t.instantiatePredicates kb s').1 = (t.instantiatePredicates kb s).1 := by
  intro h
  have hdraws : ClausalForm.draws drawnLooking ⟨0⟩ = 2 := by cbv
  have hdraws' : ClausalForm.draws drawnLooking ⟨1⟩ = 2 := by cbv
  have hrun : (drawnLooking.instantiatePredicates
      (.tellAll .empty [app "instance" [.atom "p", .atom "B"]]) ⟨0⟩).1 =
      .rejected (.noValue "?VAR2") := by cbv
  have hrun' : (drawnLooking.instantiatePredicates
      (.tellAll .empty [app "instance" [.atom "p", .atom "B"]]) ⟨1⟩).1 =
      .instantiated [app "p" [.atom "a"]] := by cbv
  have hsame := h (.tellAll .empty [app "instance" [.atom "p", .atom "B"]]) drawnLooking ⟨0⟩ ⟨1⟩
    (by rw [hdraws]; decide) (by rw [hdraws']; decide)
  rw [hrun, hrun'] at hsame
  cases hsame

end Term

end OntologyPrep
