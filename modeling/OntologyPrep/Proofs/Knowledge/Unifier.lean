import OntologyPrep.Proofs.Knowledge.Matching

/-!
# Matching finds the one substitution there is

A substitution has a term for every variable (`Term.replaceVariables`).  It unifies a pattern with a term
if it turns the pattern into exactly that term.

* `Term.exists_agrees_match?_iff`   the step that carries everything: matching narrows the substitutions
                                    that agree with the bindings to those among them that unify, and
                                    fails if none is left;
* `Literal.bindings_most_general`    a literal matches exactly the terms that some substitution turns it
                                    into; the bindings have the variables of its arguments, and the
                                    values that every such substitution has to give them.
-/

namespace OntologyPrep

/-- every variable replaced by the term that the substitution has for it -/
def Term.replaceVariables (σ : String → Term) (t : Term) : Term :=
  t.instantiate fun a => if Name.isVariable a then some (σ a) else none

/-- the substitution has for the bound names the terms that they stand for -/
def Bindings.AgreesWith (row : Bindings) (σ : String → Term) : Prop :=
  ∀ a v, row[a]? = some v → σ a = v

namespace Bindings

variable {row : Bindings} {σ : String → Term}

theorem agreesWith_empty (σ : String → Term) : AgreesWith ∅ σ := by
  intro a v h
  simp at h

/-- one more name is one more condition -/
theorem agreesWith_insert {a : String} (ha : row[a]? = none) (v : Term) :
    AgreesWith (Std.TreeMap.insert row a v) σ ↔ row.AgreesWith σ ∧ σ a = v := by
  simp only [AgreesWith, Std.TreeMap.getElem?_insert, Std.LawfulEqCmp.compare_eq_iff_eq]
  constructor
  · intro h
    refine ⟨fun b w hb => h b w ?_, h a v (if_pos rfl)⟩
    rw [if_neg, hb]
    rintro rfl
    rw [ha] at hb
    cases hb
  · rintro ⟨h, rfl⟩ b w hb
    split at hb
    · next he => exact he ▸ Option.some.inj hb
    · exact h b w hb

/-- the bindings as a substitution that leaves all other names as they are -/
def substitution (row : Bindings) (a : String) : Term := row[a]?.getD (.atom a)

theorem agreesWith_substitution (row : Bindings) : row.AgreesWith row.substitution := by
  intro a v h
  rw [substitution, h]
  rfl

end Bindings

namespace Term

variable {σ : String → Term}

theorem replaceVariables_variable {a : String} (h : Name.isVariable a = true) :
    (atom a).replaceVariables σ = σ a := by
  rw [replaceVariables, instantiate_atom, if_pos h]
  rfl

theorem replaceVariables_constant {a : String} (h : Name.isVariable a = false) :
    (atom a).replaceVariables σ = .atom a := by
  rw [replaceVariables, instantiate_atom, if_neg (Bool.eq_false_iff.mp h)]
  rfl

theorem replaceVariables_list (xs : List Term) :
    (list xs).replaceVariables σ = .list (xs.map (replaceVariables σ)) := instantiate_list xs _

mutual

/-- Matching succeeds with bindings that a substitution agrees with exactly if the substitution agrees
with the bindings there have been and turns the pattern into the term. -/
theorem exists_agrees_match?_iff (σ : String → Term) : ∀ (p v : Term) (env : Bindings),
    (∃ env', p.match? v env = some env' ∧ env'.AgreesWith σ) ↔
      env.AgreesWith σ ∧ p.replaceVariables σ = v
  | .atom a, v, env => by
    rw [match?]
    cases ha : Name.isVariable a with
    | true =>
      rw [replaceVariables_variable ha]
      cases hbound : env[a]? with
      | none => simp [Bindings.agreesWith_insert hbound]
      | some bound =>
        -- under a substitution that agrees the variable is what it is bound to
        have hvalue : env.AgreesWith σ → (bound = v ↔ σ a = v) := fun h => by rw [h a bound hbound]
        by_cases he : bound = v
        · simpa [he] using fun h => (hvalue h).mp he
        · simpa [he] using fun h hσ => he ((hvalue h).mpr hσ)
    | false =>
      rw [replaceVariables_constant ha]
      by_cases he : v = .atom a
      · simp [he]
      · simp [he, Ne.symm he]
  | .list ps, .atom b, env => by
    rw [match?, replaceVariables_list]
    simp
  | .list ps, .list vs, env => by
    rw [match?, exists_agrees_matchAll?_iff σ ps vs env, replaceVariables_list, list.injEq]

/-- several patterns match one after another, each under the bindings of those before it -/
theorem exists_agrees_matchAll?_iff (σ : String → Term) : ∀ (ps vs : List Term) (env : Bindings),
    (∃ env', matchAll? ps vs env = some env' ∧ env'.AgreesWith σ) ↔
      env.AgreesWith σ ∧ ps.map (replaceVariables σ) = vs
  | [], [], env => by simp [matchAll?]
  | [], v :: vs, env => by simp [matchAll?]
  | p :: ps, [], env => by simp [matchAll?]
  | p :: ps, v :: vs, env => by
    have hfirst := exists_agrees_match?_iff σ p v env
    rw [matchAll?, List.map_cons, List.cons.injEq, ← and_assoc, ← hfirst]
    cases p.match? v env with
    | none => simp
    | some mid => simpa using exists_agrees_matchAll?_iff σ ps vs mid

end

/-- only names that the bindings have are replaced by them -/
theorem replaceVariables_substitution {row : Bindings}
    (h : ∀ a ∈ row, Name.isVariable a = true) (t : Term) :
    t.replaceVariables row.substitution = t.instantiate (row[·]?) := by
  match t with
  | .atom a =>
    rw [instantiate_atom]
    cases ha : Name.isVariable a with
    | true => exact replaceVariables_variable ha
    | false =>
      have hnone : row[a]? = none := by
        rw [Std.TreeMap.getElem?_eq_none]
        intro hmem
        rw [h a hmem] at ha
        cases ha
      rw [replaceVariables_constant ha, hnone]
      rfl
  | .list xs =>
    rw [replaceVariables_list, instantiate_list]
    exact congrArg list (List.map_congr_left fun x _ => replaceVariables_substitution h x)

end Term

namespace Literal

variable {l : Literal} {t : Term}

theorem isVariable_of_mem_argNames {a : String} (h : a ∈ l.argNames) : Name.isVariable a = true :=
  (Term.mem_variableNames.mp h).2

/-- the bindings that a literal starts from exclude no substitution -/
theorem exists_agrees_bindings?_iff (hl : Name.isVariable l.relation = false) (σ : String → Term) :
    (∃ row, l.bindings? t = some row ∧ row.AgreesWith σ) ↔ l.toTerm.replaceVariables σ = t := by
  have hterm : l.toTerm.replaceVariables σ = .app l.relation (l.args.map (Term.replaceVariables σ)) := by
    show (Term.list (.atom l.relation :: l.args)).replaceVariables σ = _
    rw [Term.replaceVariables_list, List.map_cons, Term.replaceVariables_constant hl]
    rfl
  rw [hterm, bindings?]
  split
  · next hhead =>
    rw [Term.exists_agrees_matchAll?_iff, eq_of_head? hhead]
    simp [Bindings.agreesWith_empty, Term.app, Term.args]
  · next hhead =>
    constructor
    · rintro ⟨row, hrow, -⟩
      cases hrow
    · rintro rfl
      exact absurd rfl hhead

/-- A literal whose relation is a constant matches a term exactly if some substitution turns it into the
term.  What is bound are then the variables of its arguments; to put in what they stand for gives the
term; and any substitution that gives the term has the same values for them. -/
theorem bindings_most_general (l : Literal) (hl : Name.isVariable l.relation = false) (t : Term) :
    ((∃ row, l.bindings? t = some row) ↔ ∃ σ, l.toTerm.replaceVariables σ = t) ∧
    ∀ row, l.bindings? t = some row →
      (∀ a, a ∈ row ↔ a ∈ l.argNames) ∧
      l.toTerm.instantiate (row[·]?) = t ∧
      ∀ σ, l.toTerm.replaceVariables σ = t → ∀ a ∈ l.argNames, row[a]? = some (σ a) := by
  have hunifies : ∀ row, l.bindings? t = some row →
      l.toTerm.replaceVariables row.substitution = t := fun row hrow =>
    (exists_agrees_bindings?_iff hl _).mp ⟨row, hrow, row.agreesWith_substitution⟩
  refine ⟨⟨fun ⟨row, hrow⟩ => ⟨_, hunifies row hrow⟩, fun ⟨σ, hσ⟩ => ?_⟩,
    fun row hrow => ⟨fun a => mem_bindings? hrow, ?_, fun σ hσ a ha => ?_⟩⟩
  · obtain ⟨row, hrow, -⟩ := (exists_agrees_bindings?_iff hl σ).mpr hσ
    exact ⟨row, hrow⟩
  · rw [← Term.replaceVariables_substitution fun a ha =>
      isVariable_of_mem_argNames ((mem_bindings? hrow).mp ha)]
    exact hunifies row hrow
  · obtain ⟨row', hrow', hagrees⟩ := (exists_agrees_bindings?_iff hl σ).mpr hσ
    obtain rfl := Option.some.inj (hrow.symm.trans hrow')
    obtain ⟨v, hv⟩ := Option.isSome_iff_exists.mp
      (Std.TreeMap.mem_iff_isSome_getElem?.mp ((mem_bindings? hrow).mpr ha))
    rw [hv, hagrees a v hv]

/-- `(loves ?X (child ?X ?Y))`, with one variable at two depths -/
def lovesOwnChild : Literal :=
  ⟨"loves", [.atom "?X", .app "child" [.atom "?X", .atom "?Y"]]⟩

/-- A love for a child of one's own is an instance, whoever the parents are; a love for a child of two
others is none. -/
theorem bindings_most_general_lovesOwnChild :
    Name.isVariable lovesOwnChild.relation = false ∧
    (∃ σ, lovesOwnChild.toTerm.replaceVariables σ = .app "loves" [.app "f" [.atom "?Z"],
      .app "child" [.app "f" [.atom "?Z"], .atom "b"]]) ∧
    ¬ ∃ σ, lovesOwnChild.toTerm.replaceVariables σ =
      .app "loves" [.atom "a", .app "child" [.atom "b", .atom "b"]] := by
  have hrelation : Name.isVariable lovesOwnChild.relation = false := by decide
  have hmatch : (lovesOwnChild.bindings? (.app "loves" [.app "f" [.atom "?Z"],
      .app "child" [.app "f" [.atom "?Z"], .atom "b"]])).isSome = true := by cbv
  have hnone : lovesOwnChild.bindings? (.app "loves" [.atom "a", .app "child" [.atom "b", .atom "b"]]) =
      none := by cbv
  refine ⟨hrelation, ?_, ?_⟩
  · exact (bindings_most_general lovesOwnChild hrelation _).1.mp (Option.isSome_iff_exists.mp hmatch)
  · intro h
    obtain ⟨row, hrow⟩ := (bindings_most_general lovesOwnChild hrelation _).1.mpr h
    rw [hnone] at hrow
    cases hrow

end Literal

end OntologyPrep
