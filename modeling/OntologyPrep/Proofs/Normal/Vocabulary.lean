import OntologyPrep.Clause.Form
import OntologyPrep.Proofs.Fresh.Renaming

/-!
# The vocabulary of a normal form

`Term.Over names t` says that every atom of `t` is one of the names, a logical operator, or a truth
constant.  Each step towards a clausal form keeps this: arrows out, negations in, the variables renamed,
universal quantifiers dropped, disjunctions in.

Arrows out, negations in and disjunctions in keep more: all atoms stay of a kind as long as connectives,
truth constants and the dual quantifiers are of the kind (`Term.Steady`).  So a term without quantifiers
gets none (`Term.Unquantified`).
-/

namespace OntologyPrep

/-! ## what holds of the literals of a clause -/

theorem Clause.forall_literals_add {Q : Term → Prop} (hverum : Q .verum) {c : Clause}
    (hc : ∀ x ∈ c.literals, Q x) {t : Term}
    (ht : (∀ u : Term, t = u.neg → Q u) ∧ ((∀ u : Term, t ≠ u.neg) → Q t)) :
    ∀ x ∈ (c.add t).literals, Q x := by
  simp only [literals, List.mem_append] at hc ⊢
  unfold add
  split
  · next u =>
    rintro x (hx | hx)
    · rcases Distinct.mem_add.mp hx with hx | rfl
      · exact hc x (.inl hx)
      · exact ht.1 x rfl
    · exact hc x (.inr hx)
  · rintro x (hx | hx)
    · rcases Distinct.mem_add.mp hx with hx | rfl
      · exact hc x (.inl hx)
      · exact hverum
    · exact hc x (.inr hx)
  · next hneg _ =>
    rintro x (hx | hx)
    · exact hc x (.inl hx)
    · rcases Distinct.mem_add.mp hx with hx | rfl
      · exact hc x (.inr hx)
      · exact ht.2 fun u hu => hneg u hu

/-- what holds of truth, of each negated part and of each other one holds of all literals -/
theorem Clause.forall_literals {Q : Term → Prop} (hverum : Q .verum) {ts : List Term}
    (h : ∀ t ∈ ts, (∀ u : Term, t = u.neg → Q u) ∧ ((∀ u : Term, t ≠ u.neg) → Q t)) :
    ∀ x ∈ (ofLiterals ts).literals, Q x := by
  have hfold : ∀ c : Clause, (∀ x ∈ c.literals, Q x) → ∀ x ∈ (ts.foldl add c).literals, Q x := by
    induction ts with
    | nil => exact fun c hc => hc
    | cons t ts ih =>
      intro c hc
      exact ih (fun u hu => h u (List.mem_cons_of_mem _ hu)) _
        (forall_literals_add hverum hc (h t List.mem_cons_self))
  exact hfold .empty fun x hx => absurd hx List.not_mem_nil

namespace Term

/-! ## a kind of atoms -/

/-- a kind of atoms that has the connectives and the truth constants, and with a quantifier its dual -/
structure Steady (Q : String → Prop) : Prop where
  connective : ∀ o : Operator, Name.isQuantifier o.name = false → Q o.name
  dual : ∀ q : Quantifier, Q q.name → Q q.dual.name
  verum : Q trueName
  falsum : Q falseName

/-- every atom is of the kind -/
def MadeOf (Q : String → Prop) (t : Term) : Prop := ∀ a ∈ t.atoms, Q a

section

variable {Q : String → Prop}

theorem madeOf_atom {a : String} : (atom a).MadeOf Q ↔ Q a := by
  rw [MadeOf, atoms_atom, List.forall_mem_singleton]

theorem madeOf_list {xs : List Term} : (list xs).MadeOf Q ↔ ∀ x ∈ xs, x.MadeOf Q := by
  constructor
  · intro h x hx a ha
    refine h a ?_
    rw [atoms_list]
    exact List.mem_flatMap.mpr ⟨x, hx, ha⟩
  · intro h a ha
    rw [atoms_list] at ha
    obtain ⟨x, hx, ha⟩ := List.mem_flatMap.mp ha
    exact h x hx a ha

theorem MadeOf.tail {x : Term} {xs : List Term} (h : (list (x :: xs)).MadeOf Q) :
    ∀ y ∈ xs, y.MadeOf Q := fun y hy => madeOf_list.mp h y (List.mem_cons_of_mem _ hy)

variable (hQ : Steady Q)

include hQ

theorem madeOf_apply {o : Operator} (ho : Name.isQuantifier o.name = false) {args : List Term} :
    (apply o args).MadeOf Q ↔ ∀ x ∈ args, x.MadeOf Q := by
  rw [apply, app, madeOf_list, List.forall_mem_cons]
  exact and_iff_right (madeOf_atom.mpr (hQ.connective o ho))

theorem madeOf_pair {o : Operator} (ho : Name.isQuantifier o.name = false) {s t : Term}
    (hs : s.MadeOf Q) (ht : t.MadeOf Q) : (apply o [s, t]).MadeOf Q :=
  (madeOf_apply hQ ho).mpr (List.forall_mem_cons.mpr ⟨hs, List.forall_mem_singleton.mpr ht⟩)

theorem madeOf_neg {t : Term} : t.neg.MadeOf Q ↔ t.MadeOf Q := by
  rw [neg, madeOf_apply hQ (by decide), List.forall_mem_singleton]

theorem madeOf_equivalencesOut {t : Term} (h : t.MadeOf Q) : t.equivalencesOut.MadeOf Q := by
  have hone : ∀ {t : Term}, t.MadeOf Q → t.equivalenceOut.MadeOf Q := by
    intro t h
    unfold equivalenceOut
    split
    · next a b =>
      have ha : a.MadeOf Q := h.tail a (by simp)
      have hb : b.MadeOf Q := h.tail b (by simp)
      exact madeOf_pair hQ (by decide) (madeOf_pair hQ (by decide) ha hb)
        (madeOf_pair hQ (by decide) hb ha)
    · exact h
  induction t using equivalencesOut.induct with
  | case1 a =>
    rw [equivalencesOut]
    exact h
  | case2 items ih =>
    rw [equivalencesOut_list]
    refine hone (madeOf_list.mpr (List.forall_mem_map.mpr fun x hx => ih x hx ?_))
    exact madeOf_list.mp h x hx

theorem madeOf_implicationsOut {t : Term} (h : t.MadeOf Q) : t.implicationsOut.MadeOf Q := by
  have hone : ∀ {t : Term}, t.MadeOf Q → t.implicationOut.MadeOf Q := by
    intro t h
    unfold implicationOut
    split
    · next a b =>
      exact madeOf_pair hQ (by decide) ((madeOf_neg hQ).mpr (h.tail a (by simp))) (h.tail b (by simp))
    · exact h
  induction t using implicationsOut.induct with
  | case1 a =>
    rw [implicationsOut]
    exact h
  | case2 items ih =>
    rw [implicationsOut_list]
    refine hone (madeOf_list.mpr (List.forall_mem_map.mpr fun x hx => ih x hx ?_))
    exact madeOf_list.mp h x hx

/-- a quantified formula of atoms of the kind, with the dual quantifier -/
theorem madeOf_dual {q : Quantifier} {entries body body' : Term}
    (h : (list [.atom q.name, entries, body]).MadeOf Q) (hbody : body'.MadeOf Q) :
    (list [.atom q.dual.name, entries, body']).MadeOf Q := by
  have hparts := madeOf_list.mp h
  refine madeOf_list.mpr (List.forall_mem_cons.mpr ⟨madeOf_atom.mpr (hQ.dual q ?_), ?_⟩)
  · exact madeOf_atom.mp (hparts _ List.mem_cons_self)
  · exact List.forall_mem_cons.mpr ⟨h.tail entries (by simp), List.forall_mem_singleton.mpr hbody⟩

theorem madeOf_settle {positive : Bool} {t : Term} (h : t.MadeOf Q) :
    (t.settle positive).MadeOf Q := by
  induction positive, t using settle.induct with
  | case1 a =>
    rw [settle, if_pos rfl]
    exact h
  | case2 positive hp =>
    rw [settle, if_neg hp, if_pos rfl]
    exact madeOf_atom.mpr hQ.falsum
  | case3 positive hp hne =>
    rw [settle, if_neg hp, if_neg hne, if_pos rfl]
    exact madeOf_atom.mpr hQ.verum
  | case4 positive a hp hne hne' =>
    rw [settle, if_neg hp, if_neg hne, if_neg hne']
    exact (madeOf_neg hQ).mpr h
  | case5 positive t ih =>
    have he : (list [.atom "not", t]).settle positive = t.settle (!positive) := by
      cases positive <;> rw [settle]
    rw [he]
    exact ih (h.tail t (by simp))
  | case6 items hn ih =>
    rw [settle]
    · exact madeOf_list.mpr (List.forall_mem_map.mpr fun x hx => ih x hx (madeOf_list.mp h x hx))
    · exact hn
  | case7 args ih =>
    rw [settle]
    exact (madeOf_apply hQ (by decide)).mpr
      (List.forall_mem_map.mpr fun x hx => ih x hx (h.tail x hx))
  | case8 args ih =>
    rw [settle]
    exact (madeOf_apply hQ (by decide)).mpr
      (List.forall_mem_map.mpr fun x hx => ih x hx (h.tail x hx))
  | case9 entries body ih =>
    rw [settle]
    exact madeOf_dual hQ (q := .all) h (ih (h.tail body (by simp)))
  | case10 entries body ih =>
    rw [settle]
    exact madeOf_dual hQ (q := .any) h (ih (h.tail body (by simp)))
  | case11 items h1 h2 h3 h4 h5 =>
    rw [settle] <;> try assumption
    exact (madeOf_neg hQ).mpr h

theorem madeOf_negationsIn {t : Term} (h : t.MadeOf Q) : t.negationsIn.MadeOf Q := by
  induction t using negationsIn.induct with
  | case1 t hfixed =>
    rw [negationsIn_of_eq hfixed]
    exact h
  | case2 t hchanged ih =>
    rw [negationsIn, if_neg hchanged]
    exact ih (madeOf_settle hQ h)

omit hQ in
theorem madeOf_parts {op : String} {t : Term} (h : t.MadeOf Q) : ∀ x ∈ t.parts op, x.MadeOf Q := by
  unfold parts
  split
  · split
    · exact h.tail
    · exact List.forall_mem_singleton.mpr h
  · exact List.forall_mem_singleton.mpr h

theorem madeOf_collapse {o : Operator} (ho : Name.isQuantifier o.name = false) {ts : List Term}
    (h : ∀ t ∈ ts, t.MadeOf Q) : (collapse o.name ts).MadeOf Q := by
  unfold collapse
  split
  · exact h _ (by simp)
  · exact (madeOf_apply hQ ho).mpr h

theorem madeOf_flatten {t : Term} (h : t.MadeOf Q) : t.flatten.MadeOf Q := by
  have hmerge : ∀ {o : Operator} {args : List Term}, Name.isQuantifier o.name = false →
      (∀ x ∈ args, x.flatten.MadeOf Q) →
      (collapse o.name ((args.map flatten).flatMap (parts o.name))).MadeOf Q := by
    intro o args ho hargs
    refine madeOf_collapse hQ ho fun y hy => ?_
    obtain ⟨z, hz, hy⟩ := List.mem_flatMap.mp hy
    obtain ⟨x, hx, rfl⟩ := List.mem_map.mp hz
    exact madeOf_parts (hargs x hx) y hy
  induction t using flatten.induct with
  | case1 a =>
    rw [flatten]
    exact h
  | case2 args ih =>
    rw [flatten]
    exact hmerge (o := .conj) (by decide) fun x hx => ih x hx (h.tail x hx)
  | case3 args ih =>
    rw [flatten]
    exact hmerge (o := .disj) (by decide) fun x hx => ih x hx (h.tail x hx)
  | case4 items hand hor ih =>
    rw [flatten]
    · exact madeOf_list.mpr (List.forall_mem_map.mpr fun x hx => ih x hx (madeOf_list.mp h x hx))
    · exact hand
    · exact hor

theorem madeOf_distributeFrom {before xs : List Term} {t : Term}
    (ht : distributeFrom before xs = some t) (h : ∀ x ∈ before ++ xs, x.MadeOf Q) : t.MadeOf Q := by
  induction xs generalizing before with
  | nil => cases ht
  | cons x after ih =>
    rw [distributeFrom] at ht
    split at ht
    · next cs hcs =>
      cases ht
      have hx : (conj cs).MadeOf Q := eq_conj_of_conjuncts? hcs ▸ h x (by simp)
      refine (madeOf_apply hQ (by decide)).mpr (List.forall_mem_map.mpr fun c hc =>
        (madeOf_apply hQ (by decide)).mpr fun y hy => ?_)
      rcases List.mem_append.mp hy with hy | hy
      · exact h y (List.mem_append_left _ hy)
      · rcases List.mem_cons.mp hy with rfl | hy
        · exact (madeOf_apply hQ (by decide)).mp hx y hc
        · exact h y (List.mem_append_right _ (List.mem_cons_of_mem _ hy))
    · exact ih ht (by simpa using h)

theorem madeOf_distribute {t : Term} (h : t.MadeOf Q) : t.distribute.MadeOf Q := by
  induction t using distribute.induct with
  | case1 a =>
    rw [distribute]
    exact h
  | case2 args ih =>
    rw [distribute]
    exact (madeOf_apply hQ (by decide)).mpr
      (List.forall_mem_map.mpr fun x hx => ih x hx (h.tail x hx))
  | case3 args ih =>
    have hargs : ∀ x ∈ args.map distribute, x.MadeOf Q :=
      List.forall_mem_map.mpr fun x hx => ih x hx (h.tail x hx)
    rw [distribute, distributeParts]
    cases hd : distributeFrom [] (args.map distribute) with
    | none => exact (madeOf_apply hQ (by decide)).mpr hargs
    | some u => exact madeOf_distributeFrom hQ hd hargs
  | case4 items hand hor =>
    rw [distribute]
    · exact h
    · exact hand
    · exact hor

theorem madeOf_disjunctionsIn {t : Term} (h : t.MadeOf Q) : t.disjunctionsIn.MadeOf Q := by
  have hrounds : ∀ u : Term, u.MadeOf Q → u.clauseRounds.MadeOf Q := by
    intro u hu
    induction u using clauseRounds.induct with
    | case1 u hfixed =>
      rw [clauseRounds_of_eq hfixed]
      exact hu
    | case2 u hchanged ih =>
      rw [clauseRounds, if_neg hchanged]
      exact ih (madeOf_flatten hQ (madeOf_distribute hQ hu))
  exact hrounds _ (madeOf_flatten hQ h)

omit hQ in
theorem madeOf_operands {o : Operator} {t : Term} (h : t.MadeOf Q) : ∀ x ∈ t.operands o, x.MadeOf Q := by
  unfold operands
  split
  · intro x hx
    cases t with
    | atom a => cases hx
    | list xs => exact madeOf_list.mp h x (List.mem_of_mem_drop hx)
  · exact List.forall_mem_singleton.mpr h

end

/-- no atom is a quantifier -/
def Unquantified (t : Term) : Prop := t.MadeOf fun a => Name.isQuantifier a = false

theorem steady_unquantified : Steady fun a => Name.isQuantifier a = false where
  connective o ho := ho
  dual q hq := by
    rw [Name.isQuantifier, Quantifier.ofName?_name] at hq
    cases hq
  verum := by decide
  falsum := by decide

/-! ## names, operators and truth constants -/

variable {names : String → Prop}

/-- every atom is one of the names, a logical operator, or a truth constant -/
def Over (names : String → Prop) (t : Term) : Prop :=
  ∀ a ∈ t.atoms, names a ∨ Name.isOperator a = true ∨ a = trueName ∨ a = falseName

theorem Over.of_isVariable {t : Term} (h : t.Over names) {a : String} (ha : a ∈ t.atoms)
    (hv : Name.isVariable a = true) : names a := by
  rcases h a ha with hnames | hop | rfl | rfl
  · exact hnames
  · rw [Name.isOperator_of_isVariable hv] at hop
    cases hop
  · exact absurd hv (by decide)
  · exact absurd hv (by decide)

theorem Over.atom {t : Term} (h : t.Over names) {a : String} (ha : a ∈ t.atoms) :
    (Term.atom a).Over names := by
  intro b hb
  rw [atoms_atom, List.mem_singleton] at hb
  exact h b (hb ▸ ha)

theorem over_list {xs : List Term} : (list xs).Over names ↔ ∀ x ∈ xs, x.Over names := madeOf_list

theorem over_operator (o : Operator) : (atom o.name).Over names := by
  intro a ha
  rw [atoms_atom, List.mem_singleton] at ha
  refine .inr (.inl ?_)
  rw [ha, Name.isOperator, Operator.ofName?_name]
  rfl

theorem over_app {o : Operator} {args : List Term} :
    (app o.name args).Over names ↔ ∀ x ∈ args, x.Over names := by
  rw [app, over_list, List.forall_mem_cons]
  exact and_iff_right (over_operator o)

theorem over_apply {o : Operator} {args : List Term} :
    (apply o args).Over names ↔ ∀ x ∈ args, x.Over names := over_app

theorem over_apply_pair {o : Operator} {s t : Term} (hs : s.Over names) (ht : t.Over names) :
    (apply o [s, t]).Over names :=
  over_apply.mpr (List.forall_mem_cons.mpr ⟨hs, List.forall_mem_singleton.mpr ht⟩)

theorem over_neg {t : Term} : t.neg.Over names ↔ t.Over names := by
  rw [neg, over_apply, List.forall_mem_singleton]

theorem over_verum : verum.Over names := by
  intro a ha
  rw [verum, atoms_atom, List.mem_singleton] at ha
  exact .inr (.inr (.inl ha))

theorem over_substitute {t value : Term} (ht : t.Over names) (name : String)
    (hvalue : value.Over names) : (t.substitute name value).Over names := by
  match t with
  | .atom a =>
    rw [substitute_atom]
    split
    · exact hvalue
    · exact ht
  | .list xs =>
    by_cases hb : name ∈ (list xs).boundNames
    · rwa [substitute_of_bound value hb]
    · rw [substitute_list value hb]
      exact over_list.mpr (List.forall_mem_map.mpr fun x hx =>
        over_substitute (over_list.mp ht x hx) name hvalue)

theorem over_binder {b : Binder} (h : b.toTerm.Over names) :
    (∀ n ∈ b.names, (atom n).Over names) ∧ b.body.Over names :=
  ⟨fun _ hn => h.atom (mem_atoms_of_mem_names hn), fun a ha => h a (mem_atoms_of_mem_body ha)⟩

/-! ## arrows and negations -/

theorem steady_over (names : String → Prop) :
    Steady fun a => names a ∨ Name.isOperator a = true ∨ a = trueName ∨ a = falseName where
  connective o _ := madeOf_atom.mp (over_operator o)
  dual q _ := madeOf_atom.mp (over_operator (.quant q.dual))
  verum := .inr (.inr (.inl rfl))
  falsum := .inr (.inr (.inr rfl))

theorem over_equivalencesOut {t : Term} (h : t.Over names) : t.equivalencesOut.Over names :=
  madeOf_equivalencesOut (steady_over names) h

theorem over_implicationsOut {t : Term} (h : t.Over names) : t.implicationsOut.Over names :=
  madeOf_implicationsOut (steady_over names) h

theorem over_negationsIn {t : Term} (h : t.Over names) : t.negationsIn.Over names :=
  madeOf_negationsIn (steady_over names) h

/-! ## renaming -/

/-- renaming brings variables only -/
theorem Renames.over {ρ : String → String} {t t' : Term} (h : Renames ρ t t')
    (hvars : ∀ a, Name.isVariable a = true → names a) (ht : t.Over names) : t'.Over names := by
  have hatom : ∀ {a : String}, Name.isVariable a = true → (atom a).Over names := by
    intro a ha b hb
    rw [atoms_atom, List.mem_singleton] at hb
    exact .inl (hvars b (hb ▸ ha))
  induction h with
  | const _ => exact ht
  | var _ hv => exact hatom hv
  | @binder _ b news body _ hnews _ ih =>
    have hbody : b.body.Over names := over_list.mp ht b.body (by simp)
    exact over_apply_pair (o := .quant b.quantifier)
      (over_list.mpr (List.forall_mem_map.mpr fun n hn => hatom (hnews n hn))) (ih hbody)
  | @list _ xs ys _ hlen _ ih =>
    exact over_list.mpr (forall_mem_of_zip hlen fun p hp =>
      ih p hp (over_list.mp ht p.1 (List.of_mem_zip hp).1))

theorem over_renameApart {t : Term} (hvars : ∀ a, Name.isVariable a = true → names a)
    (h : t.Over names) (links : RenameMap) (s : Supply) :
    (t.renameApart links s).1.1.Over names := by
  obtain ⟨_, _, hspec⟩ := renameApart_spec t links s
  exact hspec.renames.over hvars h

theorem over_renameEach {ts : List Term} (hvars : ∀ a, Name.isVariable a = true → names a)
    (h : ∀ t ∈ ts, t.Over names) (links : RenameMap) (s : Supply) :
    ∀ t ∈ (renameEach ts links s).1.1, t.Over names := by
  induction ts generalizing links s with
  | nil => exact fun t ht => absurd ht List.not_mem_nil
  | cons t ts ih =>
    refine List.forall_mem_cons.mpr ⟨over_renameApart hvars (h t (by simp)) links s, ?_⟩
    exact ih (fun u hu => h u (List.mem_cons_of_mem _ hu)) _ _

theorem over_standardizeApart {t : Term} (hvars : ∀ a, Name.isVariable a = true → names a)
    (h : t.Over names) (links : RenameMap) (s : Supply) :
    (t.standardizeApart links s).1.1.Over names := by
  unfold standardizeApart
  split
  · refine over_apply.mpr (over_renameEach hvars (fun x hx => ?_) links s)
    cases t with
    | atom a => cases hx
    | list xs => exact over_list.mp h x (List.mem_of_mem_drop hx)
  · exact over_renameApart hvars h links s

/-! ## quantifiers and disjunctions -/

theorem over_universalsOut {t : Term} (h : t.Over names) : t.universalsOut.Over names := by
  induction t using universalsOut.induct with
  | case1 a =>
    rw [universalsOut]
    exact h
  | case2 items b hb hall ih =>
    have hitems := Term.list.inj (binder?_eq_some_iff.mp hb)
    rw [universalsOut]
    split
    · next b' hb' =>
      obtain rfl := Option.some.inj (hb'.symm.trans hb)
      rw [hall]
      exact ih (over_list.mp h b'.body (by simp [hitems]))
    · next hn =>
      rw [hb] at hn
      cases hn
  | case3 items b hb hany ih =>
    rw [universalsOut]
    split
    · next b' hb' =>
      obtain rfl := Option.some.inj (hb'.symm.trans hb)
      rw [hany]
      exact over_list.mpr (List.forall_mem_map.mpr fun x hx => ih x hx (over_list.mp h x hx))
    · next hn =>
      rw [hb] at hn
      cases hn
  | case4 items hb ih =>
    rw [universalsOut]
    split
    · next b hb' =>
      rw [hb] at hb'
      cases hb'
    · exact over_list.mpr (List.forall_mem_map.mpr fun x hx => ih x hx (over_list.mp h x hx))

theorem over_disjunctionsIn {t : Term} (h : t.Over names) : t.disjunctionsIn.Over names :=
  madeOf_disjunctionsIn (steady_over names) h

/-! ## clauses -/

theorem over_ofLiterals {ts : List Term} (h : ∀ t ∈ ts, t.Over names) :
    ∀ x ∈ (Clause.ofLiterals ts).literals, x.Over names := by
  refine Clause.forall_literals over_verum fun t ht => ⟨?_, fun _ => h t ht⟩
  rintro u rfl
  exact over_neg.mp (h _ ht)

theorem over_operands {o : Operator} {t : Term} (h : t.Over names) :
    ∀ x ∈ t.operands o, x.Over names := madeOf_operands h

theorem over_clauses {t : Term} (h : t.Over names) :
    ∀ c ∈ t.clauses, ∀ x ∈ c.literals, x.Over names := by
  unfold clauses
  split
  · exact List.forall_mem_singleton.mpr (over_ofLiterals (List.forall_mem_singleton.mpr over_verum))
  · exact List.forall_mem_map.mpr fun x hx => over_ofLiterals (over_operands (over_operands h x hx))

end Term

end OntologyPrep
