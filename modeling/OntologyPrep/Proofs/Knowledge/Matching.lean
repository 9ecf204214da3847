import OntologyPrep.Proofs.Knowledge.Told

/-!
# What matching binds

A pattern that matches binds its variables and nothing else (`Term.mem_match?`).  Matched against a term
without variables, it binds them to terms without variables only (`Bindings.Ground`).  A pattern that has
no variable itself matches nothing but itself (`Term.match?_eq_of_ground`).
-/

namespace OntologyPrep

/-- only variables stand for something, and what they stand for has no variables -/
def Bindings.Ground (row : Bindings) : Prop :=
  ∀ a v, row[a]? = some v → Name.isVariable a = true ∧ v.containsVariable = false

theorem Bindings.ground_empty : Bindings.Ground ∅ := by
  intro a v h
  simp at h

theorem Bindings.Ground.insert {row : Bindings} (h : row.Ground) {a : String} {v : Term}
    (ha : Name.isVariable a = true) (hv : v.containsVariable = false) :
    Bindings.Ground (Std.TreeMap.insert row a v) := by
  intro b w hb
  rw [Std.TreeMap.getElem?_insert] at hb
  split at hb
  · next he =>
    cases hb
    rw [← Std.LawfulEqCmp.compare_eq_iff_eq.mp he]
    exact ⟨ha, hv⟩
  · exact h b w hb

namespace Term

mutual

theorem ground_match? {v : Term} (hv : v.containsVariable = false) :
    ∀ (p : Term) {env env' : Bindings}, env.Ground → p.match? v env = some env' → env'.Ground
  | .atom a, env, env', henv, h => by
    rw [match?] at h
    split at h
    · next ha =>
      split at h
      · split at h
        · cases h
          exact henv
        · cases h
      · cases h
        exact henv.insert ha hv
    · split at h
      · cases h
        exact henv
      · cases h
  | .list ps, env, env', henv, h => by
    cases v with
    | atom a => simp [match?] at h
    | list vs =>
      rw [match?] at h
      exact ground_matchAll? (containsVariable_list.mp hv) ps henv h

theorem ground_matchAll? {vs : List Term} (hv : ∀ v ∈ vs, v.containsVariable = false) :
    ∀ (ps : List Term) {env env' : Bindings}, env.Ground → matchAll? ps vs env = some env' →
      env'.Ground
  | [], env, env', henv, h => by
    cases vs with
    | nil =>
      rw [matchAll?] at h
      cases h
      exact henv
    | cons v vs => simp [matchAll?] at h
  | p :: ps, env, env', henv, h => by
    cases vs with
    | nil => simp [matchAll?] at h
    | cons v vs =>
      rw [matchAll?] at h
      split at h
      · next mid hmid =>
        exact ground_matchAll? (fun w hw => hv w (by simp [hw])) ps
          (ground_match? (hv v (by simp)) p henv hmid) h
      · cases h

end

mutual

/-- a pattern without variables matches itself only -/
theorem match?_eq_of_ground : ∀ (p : Term) {v : Term} {env env' : Bindings},
    p.containsVariable = false → p.match? v env = some env' → v = p
  | .atom a, v, env, env', hp, h => by
    rw [containsVariable_atom] at hp
    rw [match?, hp] at h
    simp only at h
    split at h
    · next he => exact he
    · cases h
  | .list ps, v, env, env', hp, h => by
    cases v with
    | atom a => simp [match?] at h
    | list vs =>
      rw [match?] at h
      rw [matchAll?_eq_of_ground ps (containsVariable_list.mp hp) h]

theorem matchAll?_eq_of_ground : ∀ (ps : List Term) {vs : List Term} {env env' : Bindings},
    (∀ p ∈ ps, p.containsVariable = false) → matchAll? ps vs env = some env' → vs = ps
  | [], vs, env, env', _, h => by
    cases vs with
    | nil => rfl
    | cons v vs => simp [matchAll?] at h
  | p :: ps, vs, env, env', hp, h => by
    cases vs with
    | nil => simp [matchAll?] at h
    | cons v vs =>
      rw [matchAll?] at h
      split at h
      · next mid hmid =>
        rw [match?_eq_of_ground p (hp p (by simp)) hmid,
          matchAll?_eq_of_ground ps (fun q hq => hp q (by simp [hq])) h]
      · cases h

end

section

variable {a : String}

mutual

/-- a pattern that matches has bound all its variables, and nothing else -/
theorem mem_match? : ∀ (p : Term) {v : Term} {env env' : Bindings}, p.match? v env = some env' →
    (a ∈ env' ↔ a ∈ env ∨ a ∈ p.variableNames)
  | .atom b, v, env, env', h => by
    rw [match?] at h
    rw [mem_variableNames, atoms_atom, List.mem_singleton]
    split at h
    · next hb =>
      split at h
      · next w hw =>
        split at h
        · cases h
          refine ⟨.inl, fun h => h.elim id ?_⟩
          rintro ⟨rfl, _⟩
          exact Std.TreeMap.mem_iff_isSome_getElem?.mpr (by rw [hw]; rfl)
        · cases h
      · cases h
        rw [Std.TreeMap.mem_insert, Std.LawfulEqCmp.compare_eq_iff_eq]
        constructor
        · rintro (rfl | h)
          · exact .inr ⟨rfl, hb⟩
          · exact .inl h
        · rintro (h | ⟨rfl, _⟩)
          · exact .inr h
          · exact .inl rfl
    · next hb =>
      split at h
      · cases h
        refine ⟨.inl, fun h => h.elim id ?_⟩
        rintro ⟨rfl, hv⟩
        exact absurd (hb.symm.trans hv) Bool.false_ne_true
      · cases h
  | .list ps, v, env, env', h => by
    cases v with
    | atom a => simp [match?] at h
    | list vs =>
      rw [match?] at h
      rw [mem_matchAll? ps h, mem_variableNames_list]

theorem mem_matchAll? : ∀ (ps : List Term) {vs : List Term} {env env' : Bindings},
    matchAll? ps vs env = some env' → (a ∈ env' ↔ a ∈ env ∨ ∃ p ∈ ps, a ∈ p.variableNames)
  | [], vs, env, env', h => by
    cases vs with
    | nil =>
      rw [matchAll?] at h
      cases h
      simp
    | cons v vs => simp [matchAll?] at h
  | p :: ps, vs, env, env', h => by
    cases vs with
    | nil => simp [matchAll?] at h
    | cons v vs =>
      rw [matchAll?] at h
      split at h
      · next mid hmid =>
        rw [mem_matchAll? ps h, mem_match? p hmid, or_assoc]
        simp
      · cases h

end

end

theorem args_sublist_items (t : Term) : t.args ⊆ t.items := (List.drop_sublist 1 _).subset

end Term

namespace Literal

/-- the variables among the arguments, each once -/
def argNames (l : Literal) : List String := (Term.list l.args).variableNames

theorem mem_bindings? {l : Literal} {t : Term} {row : Bindings} (h : l.bindings? t = some row)
    {a : String} : a ∈ row ↔ a ∈ l.argNames := by
  unfold bindings? at h
  split at h
  · rw [Term.mem_matchAll? l.args h, argNames, Term.mem_variableNames_list]
    simp
  · cases h

theorem ground_bindings? {l : Literal} {t : Term} {row : Bindings}
    (ht : t.containsVariable = false) (h : l.bindings? t = some row) : row.Ground := by
  unfold bindings? at h
  split at h
  · refine Term.ground_matchAll? (fun v hv => ?_) l.args Bindings.ground_empty h
    exact Term.containsVariable_of_mem_items ht (t.args_sublist_items hv)
  · cases h

theorem eq_of_head? {t : Term} {h : String} (hh : t.head? = some h) : t = .app h t.args := by
  obtain ⟨x, hx, ha⟩ := Option.bind_eq_some_iff.mp hh
  cases t with
  | atom a => cases hx
  | list xs =>
    cases xs with
    | nil => cases hx
    | cons y ys =>
      cases hx
      rw [Term.name?_eq_some_iff.mp ha]
      rfl

/-- a literal without variables accepts itself only -/
theorem eq_of_accepts {l : Literal} {t : Term} (hl : l.toTerm.containsVariable = false)
    (h : l.accepts t = true) : t = l.toTerm := by
  obtain ⟨row, hrow⟩ := Option.isSome_iff_exists.mp h
  unfold bindings? at hrow
  split at hrow
  · next hh =>
    have hargs := Term.matchAll?_eq_of_ground l.args
      (fun p hp => Term.containsVariable_list.mp hl p (List.mem_cons_of_mem _ hp)) hrow
    rw [eq_of_head? hh, hargs]
    rfl
  · cases hrow

end Literal

end OntologyPrep
