import OntologyPrep.Arity
import OntologyPrep.Proofs.Term.Path

/-!
# The first wrong argument count

`Term.checkArity` is compared with a specification that visits nothing: a *counted* list is found by a
path, and it is at *fault* if it has not as many arguments as its relation wants.

* `Term.IsCounted`, `Term.Counted`   which lists have a count to meet, and where in a term they stand;
* `Term.Miscount`, `Term.FirstMiscount`    a list that misses its count, and the first such list;
* `Term.checkArity_eq_error_iff`     the error is the first fault;
* `Term.checkArity_exact`            terms without a fault are accepted, and no others.
-/

namespace OntologyPrep

/-! ## a run over a list -/

namespace Except

variable {α ε : Type} {f : α → Except ε Unit}

/-- a run that comes to its end has met no error -/
theorem eq_ok_of_mapM {xs : List α} {units : List Unit} (h : xs.mapM f = .ok units) :
    ∀ x ∈ xs, f x = .ok () := by
  induction xs generalizing units with
  | nil => exact fun x hx => nomatch hx
  | cons y xs ih =>
    rw [List.mapM_cons] at h
    cases hy : f y with
    | error e =>
      rw [hy] at h
      cases h
    | ok u =>
      rw [hy] at h
      cases hrest : xs.mapM f with
      | error e =>
        rw [hrest] at h
        cases h
      | ok rest => exact List.forall_mem_cons.mpr ⟨hy, ih hrest⟩

/-- a run that stops has met its error at some place, and none before it -/
theorem first_of_mapM_error {xs : List α} {e : ε} (h : xs.mapM f = .error e) :
    ∃ i x, xs[i]? = some x ∧ f x = .error e ∧
      ∀ (j : Nat) y, j < i → xs[j]? = some y → f y = .ok () := by
  induction xs with
  | nil => cases h
  | cons y xs ih =>
    rw [List.mapM_cons] at h
    cases hy : f y with
    | error e' =>
      rw [hy] at h
      cases h
      exact ⟨0, y, rfl, hy, fun j z hj => absurd hj j.not_lt_zero⟩
    | ok u =>
      rw [hy] at h
      cases hrest : xs.mapM f with
      | ok rest =>
        rw [hrest] at h
        cases h
      | error e' =>
        rw [hrest] at h
        cases h
        obtain ⟨i, x, hx, hfx, hbefore⟩ := ih hrest
        refine ⟨i + 1, x, hx, hfx, ?_⟩
        intro j z hj hz
        cases j with
        | zero =>
          cases hz
          exact hy
        | succ j => exact hbefore j z (by omega) hz

end Except

namespace Term

variable {valence : String → Int} {relation : String} {args xs : List Term} {count : Nat}
  {path other : List Nat} {t : Term} {e e' : ArityError}

/-! ## lists that are counted -/

/-- these arguments are counted, and the relation wants so many of them: two for an implication or an
equivalence, else as many as it is declared to have -/
structure IsCounted (valence : String → Int) (relation : String) (args : List Term) (count : Nat) :
    Prop where
  not_variable : Name.isVariable relation = false
  not_quoted : Name.isQuoted relation = false
  no_row : ∀ a ∈ args, a.isRowVariable = false
  pos : 0 < count
  eq : (count : Int) = if relation = "=>" ∨ relation = "<=>" then 2 else valence relation

/-- a path leads to a counted application: not a quantified formula, and not in the entries of one -/
structure Counted (valence : String → Int) (t : Term) (path : List Nat) (relation : String)
    (args : List Term) (count : Nat) : Prop where
  part : t.part? path = some (.list (.atom relation :: args))
  not_entry : ¬ t.InEntries path
  not_binder : (Term.list (.atom relation :: args)).binder? = none
  counted : IsCounted valence relation args count

/-- the application at the path has not the count of arguments that its relation wants -/
def Miscount (valence : String → Int) (t : Term) (path : List Nat) (e : ArityError) : Prop :=
  ∃ args, t.Counted valence path e.relation args e.expected ∧ e.found = args.length ∧
    e.expected ≠ e.found

/-- the fault at the path, and all others come behind it -/
def FirstMiscount (valence : String → Int) (t : Term) (path : List Nat) (e : ArityError) : Prop :=
  t.Miscount valence path e ∧
    ∀ other e', t.Miscount valence other e' → other = path ∨ Path.Before path other

/-- a relation wants one count only -/
theorem IsCounted.unique {other : Nat} (h : IsCounted valence relation args count)
    (h' : IsCounted valence relation args other) : count = other := by
  have heq := h.eq.trans h'.eq.symm
  omega

/-- there is one fault at most at a path -/
theorem Miscount.unique (h : t.Miscount valence path e) (h' : t.Miscount valence path e') : e = e' := by
  obtain ⟨args, hc, hfound, -⟩ := h
  obtain ⟨args', hc', hfound', -⟩ := h'
  have hpart := hc.part.symm.trans hc'.part
  obtain ⟨relation, expected, found⟩ := e
  obtain ⟨relation', expected', found'⟩ := e'
  simp only [Option.some.injEq, list.injEq, List.cons.injEq, atom.injEq] at hpart
  obtain ⟨rfl, rfl⟩ := hpart
  cases hc.counted.unique hc'.counted
  cases hfound.trans hfound'.symm
  rfl

/-- there is one first fault at most -/
theorem FirstMiscount.unique (h : t.FirstMiscount valence path e)
    (h' : t.FirstMiscount valence other e') : e = e' := by
  rcases h.2 other e' h'.1 with rfl | hbefore
  · exact h.1.unique h'.1
  · rcases h'.2 path e h.1 with rfl | hbehind
    · exact h.1.unique h'.1
    · exact absurd hbehind hbefore.asymm

/-! ## where a fault can stand -/

theorem not_counted_atom (a : String) :
    ¬ (atom a).Counted valence path relation args count := by
  intro h
  have hpart := h.part
  cases path with
  | nil => cases hpart
  | cons i path => cases hpart

/-- only the body of a quantified formula is looked into -/
theorem counted_toTerm (b : Binder) : b.toTerm.Counted valence path relation args count ↔
    ∃ rest, path = 2 :: rest ∧ b.body.Counted valence rest relation args count := by
  have hview := binder?_toTerm b
  constructor
  · intro h
    obtain ⟨hpart, hentry, hbinder, hcounted⟩ := h
    match path with
    | [] =>
      rw [part?_nil] at hpart
      rw [← Option.some.inj hpart, hview] at hbinder
      cases hbinder
    | 0 :: rest =>
      rw [part?_cons] at hpart
      cases rest <;> cases hpart
    | 1 :: rest => exact absurd (inEntries_cons.mpr (.inl ⟨rfl, b, hview⟩)) hentry
    | 2 :: rest =>
      refine ⟨rest, rfl, hpart, ?_, hbinder, hcounted⟩
      exact fun hin => hentry (inEntries_cons.mpr (.inr ⟨b.body, rfl, hin⟩))
    | (_ + 3) :: rest => cases hpart
  · intro h
    obtain ⟨rest, rfl, hpart, hentry, hbinder, hcounted⟩ := h
    refine ⟨hpart, ?_, hbinder, hcounted⟩
    intro hin
    rcases inEntries_cons.mp hin with ⟨hone, -⟩ | ⟨x, hx, hin⟩
    · cases hone
    · cases hx
      exact hentry hin

/-- any other list may be counted itself -/
theorem counted_list_nil (h : (list xs).binder? = none) :
    (list xs).Counted valence [] relation args count ↔
      xs = .atom relation :: args ∧ IsCounted valence relation args count := by
  constructor
  · intro hc
    have hpart := hc.part
    rw [part?_nil] at hpart
    cases hpart
    exact ⟨rfl, hc.counted⟩
  · intro hc
    obtain ⟨rfl, hcounted⟩ := hc
    exact ⟨part?_nil _, not_inEntries_nil, h, hcounted⟩

/-- and all of its elements are looked into -/
theorem counted_list_cons (h : (list xs).binder? = none) (i : Nat) :
    (list xs).Counted valence (i :: path) relation args count ↔
      ∃ x, xs[i]? = some x ∧ x.Counted valence path relation args count := by
  constructor
  · intro hc
    obtain ⟨hpart, hentry, hbinder, hcounted⟩ := hc
    rw [part?_cons] at hpart
    obtain ⟨x, hx, hpart⟩ := Option.bind_eq_some_iff.mp hpart
    refine ⟨x, hx, hpart, ?_, hbinder, hcounted⟩
    exact fun hin => hentry (inEntries_cons.mpr (.inr ⟨x, hx, hin⟩))
  · intro hc
    obtain ⟨x, hx, hpart, hentry, hbinder, hcounted⟩ := hc
    refine ⟨?_, ?_, hbinder, hcounted⟩
    · rw [part?_cons, items_list, hx]
      exact hpart
    · intro hin
      rcases inEntries_cons.mp hin with ⟨-, b, hb⟩ | ⟨y, hy, hin⟩
      · rw [h] at hb
        cases hb
      · rw [items_list, hx] at hy
        cases hy
        exact hentry hin

theorem miscount_toTerm (b : Binder) : b.toTerm.Miscount valence path e ↔
    ∃ rest, path = 2 :: rest ∧ b.body.Miscount valence rest e := by
  constructor
  · intro h
    obtain ⟨args, hc, hfault⟩ := h
    obtain ⟨rest, hpath, hbody⟩ := (counted_toTerm b).mp hc
    exact ⟨rest, hpath, args, hbody, hfault⟩
  · intro h
    obtain ⟨rest, rfl, args, hc, hfault⟩ := h
    exact ⟨args, (counted_toTerm b).mpr ⟨rest, rfl, hc⟩, hfault⟩

theorem miscount_list_cons (h : (list xs).binder? = none) (i : Nat) :
    (list xs).Miscount valence (i :: path) e ↔
      ∃ x, xs[i]? = some x ∧ x.Miscount valence path e := by
  constructor
  · intro hf
    obtain ⟨args, hc, hfault⟩ := hf
    obtain ⟨x, hx, hc⟩ := (counted_list_cons h i).mp hc
    exact ⟨x, hx, args, hc, hfault⟩
  · intro hf
    obtain ⟨x, hx, args, hc, hfault⟩ := hf
    exact ⟨args, (counted_list_cons h i).mpr ⟨x, hx, hc⟩, hfault⟩

/-! ## one application -/

theorem expectedArity?_eq_some_iff : expectedArity? valence relation = some count ↔
    0 < count ∧
      (count : Int) = if relation = "=>" ∨ relation = "<=>" then 2 else valence relation := by
  have hwords : (Operator.ofName? relation = some .implies ∨
      Operator.ofName? relation = some .iff) ↔ relation = "=>" ∨ relation = "<=>" := by
    constructor
    · exact Or.imp (fun h => (Operator.name_of_ofName? h).symm)
        (fun h => (Operator.name_of_ofName? h).symm)
    · intro h
      rcases h with rfl | rfl
      · exact .inl (Operator.ofName?_name .implies)
      · exact .inr (Operator.ofName?_name .iff)
  unfold expectedArity?
  split
  · next h =>
    rw [if_pos (hwords.mp (.inl h)), Option.some.injEq]
    omega
  · next h =>
    rw [if_pos (hwords.mp (.inr h)), Option.some.injEq]
    omega
  · next himplies hiff =>
    rw [if_neg fun h => (hwords.mpr h).elim himplies hiff]
    split
    · rw [Option.some.injEq]
      omega
    · constructor
      · exact fun h => nomatch h
      · omega

/-- the own check of a list finds the fault at its root, and no other one -/
theorem checkApplication_eq_error_iff (h : (list xs).binder? = none) :
    checkApplication valence xs = .error e ↔ (list xs).Miscount valence [] e := by
  simp only [Miscount, counted_list_nil h]
  match xs with
  | [] =>
    show Except.ok () = .error e ↔ _
    simp
  | .list ys :: args =>
    show Except.ok () = .error e ↔ _
    simp
  | .atom relation :: args =>
    rw [checkApplication]
    constructor
    · intro he
      split at he
      · cases he
      · next hplain =>
        simp only [Bool.or_eq_false_iff, List.any_eq_false, Bool.not_eq_true] at hplain
        obtain ⟨⟨hvariable, hquoted⟩, hrow⟩ := hplain
        split at he
        · next count hcount =>
          obtain ⟨hpos, heq⟩ := expectedArity?_eq_some_iff.mp hcount
          split at he
          · cases he
          · next hne =>
            cases he
            exact ⟨args, ⟨rfl, hvariable, hquoted, hrow, hpos, heq⟩, rfl, hne⟩
        · cases he
    · intro hf
      obtain ⟨args', ⟨hxs, hcounted⟩, hfound, hne⟩ := hf
      cases hxs
      have hplain : (Name.isVariable e.relation || Name.isQuoted e.relation ||
          args.any isRowVariable) = false := by
        have hrow : args.any isRowVariable = false :=
          List.any_eq_false.mpr fun a ha => by simp [hcounted.no_row a ha]
        simp [hcounted.not_variable, hcounted.not_quoted, hrow]
      have hcount := expectedArity?_eq_some_iff.mpr ⟨hcounted.pos, hcounted.eq⟩
      rw [hplain, hcount, ← hfound]
      exact if_neg hne

/-! ## the whole term -/

/-- what the check of a term has to say -/
def Judged (valence : String → Int) (t : Term) : Prop :=
  (t.checkArity valence = .ok () → ∀ path e, ¬ t.Miscount valence path e) ∧
    ∀ e, t.checkArity valence = .error e → ∃ path, t.FirstMiscount valence path e

theorem judged_toTerm (b : Binder) (h : b.body.Judged valence) : b.toTerm.Judged valence := by
  rw [Judged, checkArity_toTerm]
  constructor
  · intro hok path e hf
    obtain ⟨rest, -, hf⟩ := (miscount_toTerm b).mp hf
    exact h.1 hok rest e hf
  · intro e he
    obtain ⟨path, hf, hfirst⟩ := h.2 e he
    refine ⟨2 :: path, (miscount_toTerm b).mpr ⟨path, rfl, hf⟩, ?_⟩
    intro other e' hf'
    obtain ⟨rest, rfl, hbody⟩ := (miscount_toTerm b).mp hf'
    rcases hfirst rest e' hbody with rfl | hbefore
    · exact .inl rfl
    · exact .inr (.under 2 hbefore)

/-- the elements are judged in turn, and the list itself when none of them has a fault -/
theorem judged_list (h : (list xs).binder? = none) (hxs : ∀ x ∈ xs, x.Judged valence) :
    (list xs).Judged valence := by
  rw [Judged, checkArity_list valence h]
  cases hrun : xs.mapM (checkArity valence) with
  | ok units =>
    have hclean : ∀ i path e, ¬ (list xs).Miscount valence (i :: path) e := by
      intro i path e hf
      obtain ⟨x, hx, hf⟩ := (miscount_list_cons h i).mp hf
      have hmem := List.mem_of_getElem? hx
      exact (hxs x hmem).1 (Except.eq_ok_of_mapM hrun x hmem) path e hf
    constructor
    · intro hok path e hf
      cases path with
      | nil =>
        have herror := (checkApplication_eq_error_iff h).mpr hf
        rw [show checkApplication valence xs = .ok () from hok] at herror
        cases herror
      | cons i path => exact hclean i path e hf
    · intro e he
      refine ⟨[], (checkApplication_eq_error_iff h).mp he, ?_⟩
      intro other e' hf
      cases other with
      | nil => exact .inl rfl
      | cons i other => exact absurd hf (hclean i other e')
  | error e =>
    constructor
    · intro hok
      cases hok
    · intro e' he
      cases he
      obtain ⟨i, x, hx, herror, hbefore⟩ := Except.first_of_mapM_error hrun
      obtain ⟨path, hf, hfirst⟩ := (hxs x (List.mem_of_getElem? hx)).2 e herror
      refine ⟨i :: path, (miscount_list_cons h i).mpr ⟨x, hx, hf⟩, ?_⟩
      intro other e' hf'
      cases other with
      | nil => exact .inr (.inner i path)
      | cons j other =>
        obtain ⟨y, hy, hf'⟩ := (miscount_list_cons h j).mp hf'
        rcases Nat.lt_trichotomy i j with hlt | rfl | hgt
        · exact .inr (.left path other hlt)
        · rw [hx] at hy
          cases hy
          rcases hfirst other e' hf' with rfl | hbefore
          · exact .inl rfl
          · exact .inr (.under i hbefore)
        · have hclean := (hxs y (List.mem_of_getElem? hy)).1 (hbefore j y hgt hy)
          exact absurd hf' (hclean other e')

theorem judged (valence : String → Int) (t : Term) : t.Judged valence := by
  induction t using binderInduction with
  | atom a =>
    refine ⟨fun _ path e hf => ?_, fun e he => ?_⟩
    · obtain ⟨args, hc, -⟩ := hf
      exact not_counted_atom a hc
    · rw [checkArity_atom] at he
      cases he
  | binder b ih => exact judged_toTerm b ih
  | list xs h ih => exact judged_list h ih

/-- a term is accepted if it has no fault -/
theorem checkArity_eq_ok_iff :
    t.checkArity valence = .ok () ↔ ∀ path e, ¬ t.Miscount valence path e := by
  refine ⟨(t.judged valence).1, ?_⟩
  intro hclean
  cases hcheck : t.checkArity valence with
  | ok u => rfl
  | error e =>
    obtain ⟨path, hfirst⟩ := (t.judged valence).2 e hcheck
    exact absurd hfirst.1 (hclean path e)

/-- the error that is reported is the first fault -/
theorem checkArity_eq_error_iff :
    t.checkArity valence = .error e ↔ ∃ path, t.FirstMiscount valence path e := by
  refine ⟨(t.judged valence).2 e, ?_⟩
  intro h
  obtain ⟨path, hfirst⟩ := h
  cases hcheck : t.checkArity valence with
  | ok u => exact absurd hfirst.1 ((t.judged valence).1 hcheck path e)
  | error e' =>
    obtain ⟨other, hfirst'⟩ := (t.judged valence).2 e' hcheck
    rw [hfirst.unique hfirst']

/-- A term passes exactly if every counted list in it has as many arguments as its relation wants.  Any
other term fails with the relation and both counts of the first list that has not, where lists come from
left to right and inner ones before the outer one. -/
theorem checkArity_exact (valence : String → Int) (t : Term) :
    (t.checkArity valence = .ok () ↔ ∀ path relation args count,
      t.Counted valence path relation args count → args.length = count) ∧
    ∀ e, t.checkArity valence = .error e ↔ ∃ path, t.FirstMiscount valence path e := by
  refine ⟨?_, fun e => checkArity_eq_error_iff⟩
  rw [checkArity_eq_ok_iff]
  constructor
  · intro hclean path relation args count hc
    by_cases heq : args.length = count
    · exact heq
    · exact absurd ⟨args, hc, rfl, Ne.symm heq⟩ (hclean path ⟨relation, count, args.length⟩)
  · intro hall path e hf
    obtain ⟨args, hc, hfound, hne⟩ := hf
    exact hne ((hall path _ args _ hc).symm.trans hfound.symm)

-- the inner list comes first, and the list among the entries is not looked at
example : (app "=>" [.list [.atom "forall", app "p" [.atom "?X", .atom "?Y"], app "p" []],
    app "p" [.atom "@ROW", .atom "a"]]).checkArity (fun _ => 1) = .error ⟨"p", 1, 0⟩ := by cbv

end Term

end OntologyPrep
