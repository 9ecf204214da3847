import OntologyPrep.Proofs.Meaning.Clausification
import OntologyPrep.Proofs.Normal.Respelling

/-!
# Runs from two supplies

A supply numbers the names that it draws, so what one run draws another one draws with other numbers.
`Supply.Mirrors f s s'` says that the respelling `f` takes what is drawn from `s` to what is drawn from
`s'`.  Then every step from `s'` does with the respelled term what the step from `s` does with the term,
and respells the result (`Term.rename_mirrors`, `Term.skolemize_mirrors`, `ClausalForm.ofTerm_mirrors`).

For any two supplies there is such a respelling, and it leaves names as they are that do not look drawn
(`Supply.exists_respelling`).
-/

namespace OntologyPrep

/-! ## what mirrors what -/

/-- the respelling takes the names that the first supply draws to those that the second one draws -/
def Supply.Mirrors (f : String → String) (s s' : Supply) : Prop :=
  ∀ stem ∈ stems, ∀ n, f (stem ++ (s.after n).index) = stem ++ (s'.after n).index

/-- the second table has what the first one has, both keys and values respelled -/
def TableMirrors (f : String → String) (m m' : Std.TreeMap String String) : Prop :=
  (∀ a, m'[f a]? = (m[a]?).map f) ∧ m'.size = m.size

/-- renaming has gone as far with the second supply as with the first one -/
structure Renaming.Mirrors (f : String → String) (r r' : Renaming) : Prop where
  supply : r.supply.Mirrors f r'.supply
  free : TableMirrors f r.free r'.free
  links : TableMirrors f r.links.links r'.links.links

section

variable {f : String → String} {s s' : Supply}

theorem Supply.Mirrors.next (h : s.Mirrors f s') : s.next.Mirrors f s'.next := by
  intro stem hstem n
  rw [next_after, next_after]
  exact h stem hstem (n + 1)

theorem Supply.Mirrors.draw (h : s.Mirrors f s') {stem : String} (hstem : stem ∈ stems) :
    f (Supply.draw stem s).1 = (Supply.draw stem s').1 := by
  have hone : ∀ s : Supply, s.next = s.after 1 := fun s => by rw [← after_zero s.next, next_after]
  rw [draw_eq, draw_eq, hone, hone]
  exact h stem hstem 1

theorem TableMirrors.empty (f : String → String) : TableMirrors f ∅ ∅ := ⟨fun a => by simp, rfl⟩

theorem TableMirrors.insert (hf : Respelling f) {m m' : Std.TreeMap String String}
    (h : TableMirrors f m m') (key value : String) :
    TableMirrors f (m.insert key value) (m'.insert (f key) (f value)) := by
  constructor
  · intro a
    rw [Std.TreeMap.getElem?_insert, Std.TreeMap.getElem?_insert, h.1]
    by_cases he : key = a
    · subst he
      simp
    · rw [if_neg fun hc => he (Std.LawfulEqCmp.compare_eq_iff_eq.mp hc),
        if_neg fun hc => he (hf.inj (Std.LawfulEqCmp.compare_eq_iff_eq.mp hc))]
  · have hcontains : m'.contains (f key) = m.contains key := by
      rw [Std.TreeMap.contains_eq_isSome_getElem?, Std.TreeMap.contains_eq_isSome_getElem?, h.1,
        Option.isSome_map]
    rw [Std.TreeMap.size_insert, Std.TreeMap.size_insert, h.2, hcontains]

end

/-! ## any two supplies -/

/-- the name with a stem and a number -/
def Supply.spelled (p : String × UInt32) : String := p.1 ++ toString p.2.toNat

/-- the name is spelled like one that a supply draws -/
def Supply.Draws (a : String) : Prop := ∃ p, p.1 ∈ stems ∧ a = spelled p

theorem Supply.Drawn.draws {s s' : Supply} {names : List String} (h : s.Drawn names s') {a : String}
    (ha : a ∈ names) : Draws a := by
  obtain ⟨stem, hstem, n, _, _, rfl⟩ := h.exists_of_mem ha
  exact ⟨(stem, (s.after n).counter), hstem, rfl⟩

open Classical in
/-- a name that looks drawn with another number, and any other name as it is -/
noncomputable def Supply.shifted (d : UInt32) (a : String) : String :=
  if h : Draws a then spelled (h.choose.1, h.choose.2 + d) else a

namespace Supply

theorem spelled_inj {p q : String × UInt32} (hp : p.1 ∈ stems) (hq : q.1 ∈ stems)
    (h : spelled p = spelled q) : p = q := by
  obtain ⟨hnumber, hstem⟩ := append_toString_inj (isStem_of_mem hp) (isStem_of_mem hq) h
  exact Prod.ext hstem (UInt32.toNat_inj.mp hnumber)

theorem shifted_of_not_draws {a : String} (h : ¬ Draws a) (d : UInt32) : shifted d a = a := dif_neg h

theorem shifted_spelled {stem : String} (hstem : stem ∈ stems) (d n : UInt32) :
    shifted d (spelled (stem, n)) = spelled (stem, n + d) := by
  have h : Draws (spelled (stem, n)) := ⟨(stem, n), hstem, rfl⟩
  have hp : h.choose = (stem, n) :=
    spelled_inj h.choose_spec.1 hstem h.choose_spec.2.symm
  rw [shifted, dif_pos h, hp]

theorem shifted_inj {d : UInt32} {a b : String} (h : shifted d a = shifted d b) : a = b := by
  by_cases ha : Draws a <;> by_cases hb : Draws b
  · obtain ⟨⟨stem, n⟩, hstem, rfl⟩ := ha
    obtain ⟨⟨stem', n'⟩, hstem', rfl⟩ := hb
    rw [shifted_spelled hstem, shifted_spelled hstem'] at h
    have hpair := spelled_inj (p := (stem, n + d)) (q := (stem', n' + d)) hstem hstem' h
    obtain ⟨rfl, hnumber⟩ := Prod.mk.inj hpair
    rw [(UInt32.add_left_inj d).mp hnumber]
  · obtain ⟨⟨stem, n⟩, hstem, rfl⟩ := ha
    rw [shifted_spelled hstem, shifted_of_not_draws hb] at h
    exact absurd ⟨(stem, n + d), hstem, h.symm⟩ hb
  · obtain ⟨⟨stem, n⟩, hstem, rfl⟩ := hb
    rw [shifted_spelled hstem, shifted_of_not_draws ha] at h
    exact absurd ⟨(stem, n + d), hstem, h⟩ ha
  · rwa [shifted_of_not_draws ha, shifted_of_not_draws hb] at h

/-- what all names of one stem have in common a shifted name keeps -/
theorem shifted_keeps {β : Type} {f : String → β}
    (h : ∀ stem ∈ stems, ∀ m n : Nat, f (stem ++ toString m) = f (stem ++ toString n)) (d : UInt32)
    (a : String) : f (shifted d a) = f a := by
  by_cases ha : Draws a
  · obtain ⟨⟨stem, n⟩, hstem, rfl⟩ := ha
    rw [shifted_spelled hstem]
    exact h stem hstem _ _
  · rw [shifted_of_not_draws ha]

theorem forall_stems {P : String → Prop} :
    (∀ stem ∈ stems, P stem) ↔ P "?VAR" ∧ P "@VAR" ∧ P "Sk" ∧ P "SkFn" := by
  simp [stems]

theorem isVariable_shifted (d : UInt32) (a : String) :
    Name.isVariable (shifted d a) = Name.isVariable a := by
  refine shifted_keeps (forall_stems.mpr ⟨?_, ?_, ?_, ?_⟩) d a <;>
    simp [Name.isVariable, Name.isPlainVariable, Name.isRowVariable]

theorem isRowVariable_shifted (d : UInt32) (a : String) :
    Name.isRowVariable (shifted d a) = Name.isRowVariable a := by
  refine shifted_keeps (forall_stems.mpr ⟨?_, ?_, ?_, ?_⟩) d a <;> simp [Name.isRowVariable]

theorem isSkolem_shifted (d : UInt32) (a : String) :
    Name.isSkolem (shifted d a) = Name.isSkolem a := by
  refine shifted_keeps (forall_stems.mpr ⟨?_, ?_, ?_, ?_⟩) d a
  · simp [Name.isSkolem]
  · simp [Name.isSkolem]
  · exact fun m n => (Name.isSkolem_constant m).trans (Name.isSkolem_constant n).symm
  · exact fun m n => (Name.isSkolem_function m).trans (Name.isSkolem_function n).symm

/-- a name with a first or second letter that no stem has there does not look drawn -/
theorem not_draws_of_letter {a : String} {i : Nat} (hi : i < 2) {c : Char} (h : a.toList[i]? = some c)
    (hc : ∀ stem ∈ stems, stem.toList[i]? ≠ some c) : ¬ Draws a := by
  rintro ⟨⟨stem, n⟩, hstem, rfl⟩
  have hlength : ∀ stem ∈ stems, 2 ≤ stem.toList.length := by decide
  rw [spelled, String.toList_append,
    List.getElem?_append_left (Nat.lt_of_lt_of_le hi (hlength stem hstem))] at h
  exact hc stem hstem h

theorem not_draws_operator (o : Operator) : ¬ Draws o.name := by
  rcases o with _ | _ | _ | _ | _ | (_ | _)
  all_goals exact not_draws_of_letter Nat.two_pos rfl (by decide)

theorem not_draws_truth : ¬ Draws trueName ∧ ¬ Draws falseName :=
  ⟨not_draws_of_letter Nat.two_pos rfl (by decide), not_draws_of_letter Nat.two_pos rfl (by decide)⟩

/-- any supply mirrors any other one, by a respelling of names that look drawn -/
theorem exists_respelling (s s' : Supply) : ∃ f, Respelling f ∧ s.Mirrors f s' ∧
    (∀ a, ¬ Draws a → f a = a) ∧ ∀ a, Name.isSkolem (f a) = Name.isSkolem a := by
  refine ⟨shifted (s'.counter - s.counter), ?_, fun stem hstem n => ?_,
    fun a ha => shifted_of_not_draws ha _, isSkolem_shifted _⟩
  · exact {
      inj := shifted_inj
      operator := fun o => shifted_of_not_draws (not_draws_operator o) _
      verum := shifted_of_not_draws not_draws_truth.1 _
      falsum := shifted_of_not_draws not_draws_truth.2 _
      isVariable := isVariable_shifted _
      isRowVariable := isRowVariable_shifted _ }
  · have hcounter : (s.after n).counter + (s'.counter - s.counter) = (s'.after n).counter := by
      rw [after, after, UInt32.add_assoc, UInt32.add_comm (UInt32.ofNat n), ← UInt32.add_assoc,
        UInt32.add_comm s.counter, UInt32.sub_add_cancel]
    refine (shifted_spelled hstem _ (s.after n).counter).trans ?_
    rw [hcounter]
    rfl

end Supply

/-! ## renaming -/

namespace Renaming

variable {f : String → String} (hf : Respelling f) {r r' : Renaming}
  {scope scope' : Std.TreeMap String String}

include hf

theorem draw_mirrors (h : Mirrors f r r') (name : String) :
    (r'.draw (f name)).1 = f (r.draw name).1 ∧
      Mirrors f (r.draw name).2 (r'.draw (f name)).2 := by
  have hstem : Supply.variableStem (f name) = Supply.variableStem name := by
    rw [Supply.variableStem, hf.isRowVariable, ← Supply.variableStem]
  have hname : (r'.draw (f name)).1 = f (r.draw name).1 := by
    rw [draw_eq, draw_eq, Supply.drawLike, Supply.drawLike, hstem]
    exact (h.supply.draw (Supply.variableStem_mem name)).symm
  refine ⟨hname, h.supply.next, h.free, ?_⟩
  show TableMirrors f (r.links.insert (r.draw name).1 name).links
    (r'.links.insert (r'.draw (f name)).1 (f name)).links
  rw [hname]
  unfold RenameMap.insert
  by_cases he : (r.draw name).1 = name
  · rw [if_pos he, if_pos (congrArg f he)]
    exact h.links
  · rw [if_neg he, if_neg fun hc => he (hf.inj hc)]
    exact h.links.insert hf _ _

theorem ofFree_mirrors (h : Mirrors f r r') (name : String) :
    (r'.ofFree (f name)).1 = f (r.ofFree name).1 ∧
      Mirrors f (r.ofFree name).2 (r'.ofFree (f name)).2 := by
  rw [ofFree, ofFree, h.free.1]
  cases r.free[name]? with
  | some new => exact ⟨rfl, h⟩
  | none =>
    obtain ⟨hname, hdrawn⟩ := draw_mirrors hf h name
    refine ⟨hname, hdrawn.supply, ?_, hdrawn.links⟩
    show TableMirrors f _ ((r'.draw (f name)).2.free.insert _ (r'.draw (f name)).1)
    rw [hname]
    exact hdrawn.free.insert hf _ _

theorem bind_mirrors (hscope : TableMirrors f scope scope') (h : Mirrors f r r')
    (names : List String) :
    (bind scope' (names.map f) r').1 = (bind scope names r).1.map f ∧
      TableMirrors f (bind scope names r).2.1 (bind scope' (names.map f) r').2.1 ∧
      Mirrors f (bind scope names r).2.2 (bind scope' (names.map f) r').2.2 := by
  induction names generalizing scope scope' r r' with
  | nil => exact ⟨rfl, hscope, h⟩
  | cons name names ih =>
    obtain ⟨hname, hdrawn⟩ := draw_mirrors hf h name
    rw [List.map_cons, bind_cons, bind_cons, hname]
    obtain ⟨hnames, hinner, hlast⟩ := ih (hscope.insert hf name (r.draw name).1) hdrawn
    exact ⟨by rw [hnames, List.map_cons], hinner, hlast⟩

end Renaming

namespace Term

open Renaming

variable {f : String → String} (hf : Respelling f)

include hf

theorem rename_mirrors (t : Term) {scope scope' : Std.TreeMap String String} {r r' : Renaming}
    (hscope : TableMirrors f scope scope') (h : Mirrors f r r') :
    ((t.respell f).rename scope' r').1 = (t.rename scope r).1.respell f ∧
      Mirrors f (t.rename scope r).2 ((t.respell f).rename scope' r').2 := by
  induction t using binderInduction generalizing scope scope' r r' with
  | atom a =>
    rw [respell_atom]
    cases hv : Name.isVariable a with
    | false =>
      rw [rename, rename, hf.isVariable, hv]
      exact ⟨(respell_atom f a).symm, h⟩
    | true =>
      rw [rename, rename, hf.isVariable, hv, hscope.1]
      cases scope[a]? with
      | some new => exact ⟨(respell_atom f new).symm, h⟩
      | none =>
        obtain ⟨hname, hfree⟩ := ofFree_mirrors hf h a
        exact ⟨(congrArg atom hname).trans (respell_atom f _).symm, hfree⟩
  | binder b ih =>
    obtain ⟨hnames, hinner, hbound⟩ := bind_mirrors hf hscope h b.names
    obtain ⟨hbody, hlast⟩ := ih hinner hbound
    rw [hf.toTerm, rename_binder, rename_binder, Respelling.names, hf.quantified]
    exact ⟨congrArg₂ (quantified b.quantifier.name) hnames hbody, hlast⟩
  | list xs hb ih =>
    rw [respell_list, rename_list scope hb, rename_list scope' (hf.binder?_list hb), respell_list]
    obtain ⟨hterms, hlast⟩ := State.mapM_simulates (g := rename scope')
      (fun x hx r r' h => ih x hx hscope h) h
    exact ⟨congrArg list hterms, hlast⟩

theorem renameApart_mirrors {links links' : RenameMap}
    (hlinks : TableMirrors f links.links links'.links) {s s' : Supply} (hs : s.Mirrors f s')
    (t : Term) :
    ((t.respell f).renameApart links' s').1.1 = (t.renameApart links s).1.1.respell f ∧
      TableMirrors f (t.renameApart links s).1.2.links
        ((t.respell f).renameApart links' s').1.2.links ∧
      (t.renameApart links s).2.Mirrors f ((t.respell f).renameApart links' s').2 := by
  have hstart : Mirrors f (.start s links) (.start s' links') := ⟨hs, .empty f, hlinks⟩
  obtain ⟨hterm, hlast⟩ := rename_mirrors hf t (.empty f) hstart
  exact ⟨hterm, hlast.links, hlast.supply⟩

theorem renameEach_mirrors {links links' : RenameMap}
    (hlinks : TableMirrors f links.links links'.links) {s s' : Supply} (hs : s.Mirrors f s')
    (ts : List Term) :
    (renameEach (ts.map (respell f)) links' s').1.1 =
        (renameEach ts links s).1.1.map (respell f) ∧
      TableMirrors f (renameEach ts links s).1.2.links
        (renameEach (ts.map (respell f)) links' s').1.2.links := by
  induction ts generalizing links links' s s' with
  | nil => exact ⟨rfl, hlinks⟩
  | cons t ts ih =>
    obtain ⟨hterm, hlast, hsupply⟩ := renameApart_mirrors hf hlinks hs t
    obtain ⟨hterms, hall⟩ := ih hlast hsupply
    exact ⟨congrArg₂ List.cons hterm hterms, hall⟩

theorem standardizeApart_mirrors {links links' : RenameMap}
    (hlinks : TableMirrors f links.links links'.links) {s s' : Supply} (hs : s.Mirrors f s')
    (t : Term) :
    ((t.respell f).standardizeApart links' s').1.1 =
        (t.standardizeApart links s).1.1.respell f ∧
      TableMirrors f (t.standardizeApart links s).1.2.links
        ((t.respell f).standardizeApart links' s').1.2.links := by
  unfold standardizeApart
  rw [hf.operator?]
  split
  · obtain ⟨hterms, hlast⟩ := renameEach_mirrors hf hlinks hs t.args
    rw [Respelling.args]
    exact ⟨(congrArg conj hterms).trans (hf.conj _).symm, hlast⟩
  · obtain ⟨hterm, hlast, _⟩ := renameApart_mirrors hf hlinks hs t
    exact ⟨hterm, hlast⟩

/-! ## Skolem terms -/

omit hf in
theorem respell_ofSkolem (symbol : String) (universals : List String) :
    (ofSkolem symbol universals).respell f = ofSkolem (f symbol) (universals.map f) := by
  cases universals with
  | nil => exact respell_atom f symbol
  | cons u us =>
    rw [ofSkolem, app, respell_list, List.map_cons, respell_atom, Respelling.map_atom]
    rfl

omit hf in
theorem skolemSymbol_mirrors {s s' : Supply} (hs : s.Mirrors f s') (universals : List String) :
    Supply.skolemSymbol (universals.map f) s' = f (Supply.skolemSymbol universals s) := by
  cases universals with
  | nil => exact (hs.draw (show "Sk" ∈ Supply.stems by decide)).symm
  | cons u us => exact (hs.draw (show "SkFn" ∈ Supply.stems by decide)).symm

theorem skolemizeNames_mirrors {s s' : Supply} (hs : s.Mirrors f s')
    (universals names : List String) (body : Term) :
    (skolemizeNames (universals.map f) (names.map f) (body.respell f) s').1 =
        (skolemizeNames universals names body s).1.respell f ∧
      (skolemizeNames universals names body s).2.Mirrors f
        (skolemizeNames (universals.map f) (names.map f) (body.respell f) s').2 := by
  induction names generalizing body s s' with
  | nil => exact ⟨rfl, hs⟩
  | cons name names ih =>
    rw [List.map_cons, skolemizeNames, skolemizeNames, State.bind_apply, State.bind_apply,
      Supply.skolem_eq, Supply.skolem_eq, skolemSymbol_mirrors hs, ← respell_ofSkolem, hf.substitute]
    exact ih hs.next _

theorem skolemize_mirrors {s s' : Supply} (hs : s.Mirrors f s') (universals : List String)
    (t : Term) :
    ((t.respell f).skolemize (universals.map f) s').1 = (t.skolemize universals s).1.respell f ∧
      (t.skolemize universals s).2.Mirrors f ((t.respell f).skolemize (universals.map f) s').2 := by
  induction universals, t using skolemize.induct generalizing s s' with
  | case1 universals a =>
    rw [respell_atom, skolemize, skolemize]
    exact ⟨(respell_atom f a).symm, hs⟩
  | case2 universals items b hb hall ih =>
    rw [binder?_eq_some_iff.mp hb, hf.toTerm, skolemize_binder_all _ hall,
      skolemize_binder_all _ (b := b.respell f) hall, Respelling.names, ← List.map_append]
    obtain ⟨hbody, hlast⟩ := ih hs
    exact ⟨(congrArg (quantified _ _) hbody).trans (hf.quantified _ _ _).symm, hlast⟩
  | case3 universals items b hb hany ih =>
    rw [binder?_eq_some_iff.mp hb, hf.toTerm, skolemize_binder_any _ hany,
      skolemize_binder_any _ (b := b.respell f) hany, Respelling.names]
    obtain ⟨hbody, hlast⟩ := skolemizeNames_mirrors hf hs universals b.names b.body
    rw [show (b.respell f).body = b.body.respell f from rfl, hbody]
    exact ih _ hlast
  | case4 universals items hb ih =>
    rw [respell_list, skolemize_list _ hb, skolemize_list _ (hf.binder?_list hb), respell_list]
    obtain ⟨hterms, hlast⟩ := State.mapM_simulates (g := skolemize (universals.map f))
      (fun x hx s s' hs => ih x hx hs) hs
    exact ⟨congrArg list hterms, hlast⟩

theorem existentialsOut_mirrors {s s' : Supply} (hs : s.Mirrors f s') (t : Term) :
    ((t.respell f).existentialsOut s').1 = (t.existentialsOut s).1.respell f ∧
      (t.existentialsOut s).2.Mirrors f ((t.respell f).existentialsOut s').2 := by
  rw [existentialsOut, existentialsOut, hf.freeVariables]
  exact skolemize_mirrors hf hs t.freeVariables t

end Term

/-! ## the clausal form -/

/-- a clausal form from another supply is that of the respelled term, the links respelled as well -/
theorem ClausalForm.ofTerm_mirrors {f : String → String} (hf : Respelling f) {s s' : Supply}
    (hs : s.Mirrors f s') (t : Term) :
    (ofTerm (t.respell f) s').1.term = (ofTerm t s).1.term.respell f ∧
      TableMirrors f (ofTerm t s).1.links.links (ofTerm (t.respell f) s').1.links.links := by
  have hnormal : normal (t.respell f) = (normal t).respell f := by
    rw [normal, Term.arrowsOut, hf.equivalencesOut, hf.implicationsOut, hf.negationsIn]
    rfl
  have hempty : TableMirrors f RenameMap.empty.links RenameMap.empty.links := .empty f
  obtain ⟨hrenamed, hlinks, hsupply⟩ :=
    Term.renameApart_mirrors hf hempty hs (normal t)
  rw [← hnormal, ← renamed, ← renamed] at hrenamed hlinks hsupply
  obtain ⟨hskolem, hlast⟩ := Term.existentialsOut_mirrors hf hsupply (renamed t s).1.1
  rw [← hrenamed, ← skolemized, ← skolemized] at hskolem hlast
  have hmatrix : matrix (t.respell f) s' = (matrix t s).respell f := by
    rw [matrix, hskolem, hf.universalsOut, hf.disjunctionsIn, matrix]
  rw [ofTerm_eq, ofTerm_eq, hmatrix]
  exact Term.standardizeApart_mirrors hf hlinks hlast (matrix t s)

end OntologyPrep
