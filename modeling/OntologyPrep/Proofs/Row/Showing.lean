import OntologyPrep.Proofs.Meaning.FirstOrder

/-!
# What the clauses of a formula show of a relation

`Term.showing r own positive live t` says, without making the clauses of the formula `t`, or of its
negation if it is read with the other sign, whether they apply the relation `r` to a variable that comes
from some row.  There are three cases, as a formula may have no clauses at all: then no disjunction that
it is a part of has any.  A variable that a quantifier binds stays one if the quantifier acts on all
values where it stands; otherwise a Skolem term takes its place, and no application to it is left.

* `Showing`                       the three cases, and what conjunctions and disjunctions make of them;
* `Term.applies`                  a relation is applied to one of some variables somewhere in a term;
* `Term.applies_of_showing`       nothing is shown that is not there;
* `Term.Exposes.showing_eq`       all that is there is shown, if no connective is without parts and no
                                  quantifier that makes Skolem terms binds the row.
-/

namespace OntologyPrep

/-! ## three cases -/

/-- what the clauses of a formula show of something that a clause may have -/
inductive Showing where
  /-- there are no clauses -/
  | vacant
  /-- there are clauses, but none of them has it -/
  | hidden
  /-- one of the clauses has it -/
  | shown
  deriving DecidableEq, Repr

namespace Showing

/-- clauses that may have it -/
def ofBool (b : Bool) : Showing := if b then shown else hidden

/-- the clauses of two formulas together -/
def and : Showing → Showing → Showing
  | vacant, y => y
  | x, vacant => x
  | hidden, hidden => hidden
  | _, _ => shown

/-- every clause of one formula joined to every clause of another -/
def or : Showing → Showing → Showing
  | vacant, _ | _, vacant => vacant
  | hidden, hidden => hidden
  | _, _ => shown

/-- the clauses of a conjunction -/
def all (xs : List Showing) : Showing := xs.foldr and vacant

/-- the clauses of a disjunction -/
def any (xs : List Showing) : Showing := xs.foldr or hidden

/-- the clauses of a conjunction, or those of a disjunction for the other sign -/
def junction (positive : Bool) (xs : List Showing) : Showing := if positive then all xs else any xs

@[simp] theorem ofBool_false : ofBool false = hidden := rfl

theorem ofBool_eq_shown {b : Bool} : ofBool b = shown ↔ b = true := by cases b <;> decide

@[simp] theorem vacant_and (x : Showing) : and vacant x = x := rfl
@[simp] theorem and_vacant (x : Showing) : and x vacant = x := by cases x <;> rfl
@[simp] theorem hidden_or (x : Showing) : or hidden x = x := by cases x <;> rfl
@[simp] theorem or_hidden (x : Showing) : or x hidden = x := by cases x <;> rfl
@[simp] theorem or_vacant (x : Showing) : or x vacant = vacant := by cases x <;> rfl

theorem and_assoc (x y z : Showing) : and (and x y) z = and x (and y z) := by
  cases x <;> cases y <;> cases z <;> rfl

theorem or_assoc (x y z : Showing) : or (or x y) z = or x (or y z) := by
  cases x <;> cases y <;> cases z <;> rfl

theorem or_comm (x y : Showing) : or x y = or y x := by
  cases x <;> cases y <;> rfl

theorem or_and (x y z : Showing) : or x (and y z) = and (or x y) (or x z) := by
  cases x <;> cases y <;> cases z <;> rfl

theorem and_eq_shown {x y : Showing} : and x y = shown ↔ x = shown ∨ y = shown := by
  cases x <;> cases y <;> decide

/-- a disjunction shows no more than its parts -/
theorem shown_of_or {x y : Showing} (h : or x y = shown) : x = shown ∨ y = shown := by
  cases x <;> cases y <;> simp_all [or]

theorem and_ofBool (a b : Bool) : and (ofBool a) (ofBool b) = ofBool (a || b) := by
  cases a <;> cases b <;> rfl

theorem or_ofBool (a b : Bool) : or (ofBool a) (ofBool b) = ofBool (a || b) := by
  cases a <;> cases b <;> rfl

@[simp] theorem all_nil : all [] = vacant := rfl
@[simp] theorem any_nil : any [] = hidden := rfl
@[simp] theorem all_cons (x : Showing) (xs : List Showing) : all (x :: xs) = and x (all xs) := rfl
@[simp] theorem any_cons (x : Showing) (xs : List Showing) : any (x :: xs) = or x (any xs) := rfl

theorem all_append (xs ys : List Showing) : all (xs ++ ys) = and (all xs) (all ys) := by
  induction xs with
  | nil => rfl
  | cons x xs ih => rw [List.cons_append, all_cons, all_cons, ih, and_assoc]

theorem any_append (xs ys : List Showing) : any (xs ++ ys) = or (any xs) (any ys) := by
  induction xs with
  | nil => rw [List.nil_append, any_nil, hidden_or]
  | cons x xs ih => rw [List.cons_append, any_cons, any_cons, ih, or_assoc]

theorem junction_singleton (positive : Bool) (x : Showing) : junction positive [x] = x := by
  cases positive with
  | true => exact and_vacant x
  | false => exact or_hidden x

theorem junction_append (positive : Bool) (xs ys : List Showing) : junction positive (xs ++ ys) =
    junction positive [junction positive xs, junction positive ys] := by
  cases positive with
  | true => exact (all_append xs ys).trans (by simp [junction])
  | false => exact (any_append xs ys).trans (by simp [junction])

theorem junction_cons (positive : Bool) (x : Showing) (xs : List Showing) :
    junction positive (x :: xs) = junction positive [x, junction positive xs] := by
  have happend := junction_append positive [x] xs
  rwa [junction_singleton] at happend

theorem any_middle (before after : List Showing) (x : Showing) :
    any (before ++ x :: after) = or (any (before ++ after)) x := by
  rw [any_append, any_append, any_cons, or_assoc, or_comm x]

/-- distributing a disjunction over a conjunction -/
theorem or_all (x : Showing) (xs : List Showing) : or x (all xs) = all (xs.map (or x)) := by
  induction xs with
  | nil => exact or_vacant x
  | cons y xs ih => rw [all_cons, or_and, ih, List.map_cons, all_cons]

theorem all_eq_shown {xs : List Showing} : all xs = shown ↔ shown ∈ xs := by
  induction xs with
  | nil => simp
  | cons x xs ih =>
    rw [all_cons, and_eq_shown, ih, List.mem_cons]
    exact or_congr_left eq_comm

theorem shown_of_any {xs : List Showing} (h : any xs = shown) : shown ∈ xs := by
  induction xs with
  | nil => cases h
  | cons x xs ih =>
    rw [any_cons] at h
    exact List.mem_cons.mpr ((shown_of_or h).imp Eq.symm ih)

theorem shown_of_junction {positive : Bool} {xs : List Showing} (h : junction positive xs = shown) :
    shown ∈ xs := by
  cases positive with
  | true => exact all_eq_shown.mp h
  | false => exact shown_of_any h

theorem shown_of_pair {positive : Bool} {x y : Showing} (h : junction positive [x, y] = shown) :
    x = shown ∨ y = shown := by
  have hmem := shown_of_junction h
  rw [List.mem_cons, List.mem_singleton] at hmem
  exact hmem.imp Eq.symm Eq.symm

theorem any_map_ofBool {α : Type} (p : α → Bool) (xs : List α) :
    any (xs.map fun x => ofBool (p x)) = ofBool (xs.any p) := by
  induction xs with
  | nil => rfl
  | cons x xs ih => rw [List.map_cons, any_cons, ih, or_ofBool, List.any_cons]

theorem junction_ofBool_pair (positive a b : Bool) :
    junction positive [ofBool a, ofBool b] = ofBool (a || b) := by
  cases positive <;> cases a <;> cases b <;> rfl

/-- formulas that have clauses show together what one of them shows -/
theorem junction_map_ofBool {α : Type} (positive : Bool) (p : α → Bool) {xs : List α} (h : xs ≠ []) :
    junction positive (xs.map fun x => ofBool (p x)) = ofBool (xs.any p) := by
  cases positive with
  | false => exact any_map_ofBool p xs
  | true =>
    obtain ⟨x, xs, rfl⟩ := List.exists_cons_of_ne_nil h
    show and (ofBool (p x)) (all (xs.map fun x => ofBool (p x))) = _
    clear h
    induction xs generalizing x with
    | nil => simp
    | cons y xs ih =>
      rw [List.map_cons, all_cons, ih, and_ofBool, List.any_cons, List.any_cons, List.any_cons]

end Showing

/-! ## applications to some variables -/

/-- the quantifier speaks of all values in a formula that is read with the sign -/
def Quantifier.isUniversal (positive : Bool) : Quantifier → Bool
  | .all => positive
  | .any => !positive

theorem Quantifier.isUniversal_dual (positive : Bool) (q : Quantifier) :
    q.dual.isUniversal positive = q.isUniversal (!positive) := by
  cases q <;> cases positive <;> rfl

namespace Term

/-- the term is one of the variables -/
def isOneOf (live : String → Bool) (t : Term) : Bool :=
  t.name?.any fun a => Name.isVariable a && live a

/-- a list in the term applies the symbol to one of the variables -/
def applies (r : String) (live : String → Bool) (t : Term) : Bool :=
  t.subterms.any fun u => u.head? == some r && u.args.any (isOneOf live)

section

variable {r : String} {live live' : String → Bool}

theorem isOneOf_atom {a : String} (ha : Name.isVariable a = true) : (atom a).isOneOf live = live a := by
  rw [isOneOf, name?_atom, Option.any_some, ha, Bool.true_and]

@[simp] theorem isOneOf_list (xs : List Term) : (list xs).isOneOf live = false := rfl

theorem isOneOf_constant {a : String} (ha : Name.isVariable a = false) : (atom a).isOneOf live = false := by
  rw [isOneOf, name?_atom, Option.any_some, ha, Bool.false_and]

@[simp] theorem applies_atom (a : String) : (atom a).applies r live = false := by
  rw [applies, subterms_atom]
  rfl

theorem applies_list (xs : List Term) : (list xs).applies r live =
    ((list xs).head? == some r && (xs.drop 1).any (isOneOf live) || xs.any (applies r live)) := by
  rw [applies, subterms_list, List.any_cons, List.any_flatMap]
  rfl

/-- only applications of the symbol itself count -/
theorem applies_app {head : String} (h : head ≠ r) (args : List Term) :
    (app head args).applies r live = args.any (applies r live) := by
  have hne : (some head == some r) = false := by simpa using h
  rw [app, applies_list, head?_list_cons, name?_atom, hne, Bool.false_and, Bool.false_or, List.any_cons,
    applies_atom, Bool.false_or]

theorem applies_mono {t : Term} (h : ∀ a, live a = true → live' a = true) (ht : t.applies r live = true) :
    t.applies r live' = true := by
  obtain ⟨u, hu, hr⟩ := List.any_eq_true.mp ht
  rw [Bool.and_eq_true] at hr
  obtain ⟨x, hx, hlive⟩ := List.any_eq_true.mp hr.2
  obtain ⟨a, ha, hlive⟩ := (Option.any_eq_true _ _).mp hlive
  rw [Bool.and_eq_true] at hlive
  refine List.any_eq_true.mpr ⟨u, hu, Bool.and_eq_true_iff.mpr ⟨hr.1, List.any_eq_true.mpr ⟨x, hx, ?_⟩⟩⟩
  exact (Option.any_eq_true _ _).mpr ⟨a, ha, Bool.and_eq_true_iff.mpr ⟨hlive.1, h a hlive.2⟩⟩

theorem applies_apply (hr : Name.IsConstant r) (o : Operator) (args : List Term) :
    (apply o args).applies r live = args.any (applies r live) := by
  refine applies_app ?_ args
  rintro rfl
  have hop := hr.2
  rw [Name.isOperator, Operator.ofName?_name] at hop
  cases hop

/-- a list of bound variables is no application of a constant -/
theorem applies_quantified (hr : Name.IsConstant r) (q : Quantifier) {names : List String}
    (hnames : ∀ n ∈ names, Name.isVariable n = true) (body : Term) :
    (quantified q.name names body).applies r live = body.applies r live := by
  have hlist : (list (names.map atom)).applies r live = false := by
    have hhead : ((list (names.map atom)).head? == some r) = false := by
      cases names with
      | nil => rfl
      | cons n names => simpa using Name.ne_of_isVariable (hnames n List.mem_cons_self) hr.1
    rw [applies_list, hhead, Bool.false_and, Bool.false_or, List.any_map]
    exact List.any_eq_false.mpr fun n _ => by simp
  have happly : (quantified q.name names body).applies r live =
      [.list (names.map atom), body].any (applies r live) := applies_apply hr (.quant q) _
  rw [List.any_cons, hlist, Bool.false_or, List.any_cons, List.any_nil, Bool.or_false] at happly
  exact happly

/-- an application of the symbol to one variable -/
theorem applies_iff {row : String} (hrow : Name.isVariable row = true) {t : Term} :
    t.applies r (· == row) = true ↔ ∃ u ∈ t.subterms, u.head? = some r ∧ .atom row ∈ u.args := by
  have hone : ∀ x : Term, x.isOneOf (· == row) = true ↔ x = .atom row := by
    intro x
    cases x with
    | list xs => simp
    | atom a =>
      rw [isOneOf, name?_atom, Option.any_some, Bool.and_eq_true, beq_iff_eq, Term.atom.injEq]
      exact ⟨fun h => h.2, fun h => ⟨h ▸ hrow, h⟩⟩
  rw [applies, List.any_eq_true]
  refine exists_congr fun u => and_congr_right fun _ => ?_
  rw [Bool.and_eq_true, beq_iff_eq, List.any_eq_true]
  refine and_congr_right fun _ => ⟨?_, fun h => ⟨_, h, (hone _).mpr rfl⟩⟩
  rintro ⟨x, hx, h⟩
  rwa [← (hone x).mp h]

end

/-! ## what a formula shows -/

/-- the variables that count in the scope of a quantifier: of those that it binds the ones of the row, if
it speaks of all values, and of the others the same as outside -/
def inScope (universal : Bool) (names : List String) (own live : String → Bool) (a : String) : Bool :=
  if a ∈ names then universal && own a else live a

/-- what the clauses of a formula, or of its negation if it is not `positive`, show of a relation: `own`
are the variables of the row, and `live` those that count where the formula stands -/
def showing (r : String) (own : String → Bool) (positive : Bool) (live : String → Bool) : Term → Showing
  | .list (.atom "and" :: args) => .junction positive (args.map (showing r own positive live))
  | .list (.atom "or" :: args) => .junction (!positive) (args.map (showing r own positive live))
  | .list [.atom "not", t] => t.showing r own (!positive) live
  | .list [.atom "=>", s, t] =>
    .junction (!positive) [s.showing r own (!positive) live, t.showing r own positive live]
  | .list [.atom "<=>", s, t] => .junction positive
      [.junction (!positive) [s.showing r own (!positive) live, t.showing r own positive live],
        .junction (!positive) [t.showing r own (!positive) live, s.showing r own positive live]]
  | .list [.atom "forall", entries, body] => body.showing r own positive
      (inScope (Quantifier.all.isUniversal positive) (Binder.mk .all entries body).names own live)
  | .list [.atom "exists", entries, body] => body.showing r own positive
      (inScope (Quantifier.any.isUniversal positive) (Binder.mk .any entries body).names own live)
  | t => .ofBool (t.applies r live)

section

variable {r : String} {own live : String → Bool} {positive : Bool}

theorem showing_conj (args : List Term) : (conj args).showing r own positive live =
    .junction positive (args.map (showing r own positive live)) := by
  show (list (.atom "and" :: args)).showing r own positive live = _
  rw [showing]

theorem showing_disj (args : List Term) : (disj args).showing r own positive live =
    .junction (!positive) (args.map (showing r own positive live)) := by
  show (list (.atom "or" :: args)).showing r own positive live = _
  rw [showing]

theorem showing_neg (t : Term) :
    t.neg.showing r own positive live = t.showing r own (!positive) live := by
  show (list [.atom "not", t]).showing r own positive live = _
  rw [showing]

theorem showing_implies (s t : Term) : (implies s t).showing r own positive live =
    .junction (!positive) [s.showing r own (!positive) live, t.showing r own positive live] := by
  show (list [.atom "=>", s, t]).showing r own positive live = _
  rw [showing]

theorem showing_iff (s t : Term) : (iff s t).showing r own positive live = .junction positive
    [.junction (!positive) [s.showing r own (!positive) live, t.showing r own positive live],
      .junction (!positive) [t.showing r own (!positive) live, s.showing r own positive live]] := by
  show (list [.atom "<=>", s, t]).showing r own positive live = _
  rw [showing]

theorem showing_quantified (q : Quantifier) (names : List String) (body : Term) :
    (quantified q.name names body).showing r own positive live =
      body.showing r own positive (inScope (q.isUniversal positive) names own live) := by
  cases q with
  | all =>
    show (list [.atom "forall", .list (names.map atom), body]).showing r own positive live = _
    rw [showing, names_quantified]
  | any =>
    show (list [.atom "exists", .list (names.map atom), body]).showing r own positive live = _
    rw [showing, names_quantified]

theorem Nonlogical.showing {t : Term} (h : t.Nonlogical) :
    t.showing r own positive live = .ofBool (t.applies r live) := by
  rw [Term.showing]
  · rintro args rfl
    exact h.head_ne .conj rfl
  · rintro args rfl
    exact h.head_ne .disj rfl
  · rintro t rfl
    exact h.head_ne .neg rfl
  · rintro s t rfl
    exact h.head_ne .implies rfl
  · rintro s t rfl
    exact h.head_ne .iff rfl
  · rintro entries body rfl
    exact h.head_ne (.quant .all) rfl
  · rintro entries body rfl
    exact h.head_ne (.quant .any) rfl

theorem showing_atom (a : String) : (atom a).showing r own positive live = .hidden := by
  rw [(nonlogical_atom a).showing, applies_atom, Showing.ofBool_false]

/-! ## what is shown is there -/

/-- the clauses show no application that the formula does not have -/
theorem applies_of_showing (hr : Name.IsConstant r) {f : Fragment} {t : Term}
    (ht : t.IsFormula Nonlogical f) {live' : String → Bool} (hown : ∀ a, own a = true → live' a = true)
    (hlive : ∀ a, live a = true → live' a = true) (h : t.showing r own positive live = .shown) :
    t.applies r live' = true := by
  have hatomic : ∀ {t : Term} {positive : Bool} {live : String → Bool}, t.Nonlogical →
      (∀ a, live a = true → live' a = true) → t.showing r own positive live = .shown →
      t.applies r live' = true := by
    intro t positive live ht hlive h
    rw [ht.showing, Showing.ofBool_eq_shown] at h
    exact applies_mono hlive h
  -- a connective shows what one of its parts shows
  have hparts : ∀ {o : Operator} {args : List Term} {x : Term}, x ∈ args → x.applies r live' = true →
      (apply o args).applies r live' = true := by
    intro o args x hx hlive
    rw [applies_apply hr]
    exact List.any_eq_true.mpr ⟨x, hx, hlive⟩
  induction ht generalizing positive live with
  | atomic ht => exact hatomic ht hlive h
  | literal ht =>
    rw [showing_neg] at h
    exact hparts List.mem_cons_self (hatomic ht hlive h)
  | conj _ ih =>
    rw [showing_conj] at h
    obtain ⟨x, hx, hshown⟩ := List.mem_map.mp (Showing.shown_of_junction h)
    exact hparts hx (ih x hx hlive hshown)
  | disj _ ih =>
    rw [showing_disj] at h
    obtain ⟨x, hx, hshown⟩ := List.mem_map.mp (Showing.shown_of_junction h)
    exact hparts hx (ih x hx hlive hshown)
  | neg _ _ ih =>
    rw [showing_neg] at h
    exact hparts List.mem_cons_self (ih hlive h)
  | @implies s t _ _ _ ihs iht =>
    rw [showing_implies] at h
    rcases Showing.shown_of_pair h with h | h
    · exact hparts (by simp) (ihs hlive h)
    · exact hparts (by simp) (iht hlive h)
  | @iff s t _ _ _ ihs iht =>
    rw [showing_iff] at h
    rcases Showing.shown_of_pair h with h | h
    · rcases Showing.shown_of_pair h with h | h
      · exact hparts (by simp) (ihs hlive h)
      · exact hparts (by simp) (iht hlive h)
    · rcases Showing.shown_of_pair h with h | h
      · exact hparts (by simp) (iht hlive h)
      · exact hparts (by simp) (ihs hlive h)
  | quantified _ hnames _ ih =>
    rw [showing_quantified] at h
    rw [applies_quantified hr _ hnames]
    refine ih (fun a ha => ?_) h
    unfold inScope at ha
    split at ha
    · exact hown a (Bool.and_eq_true_iff.mp ha).2
    · exact hlive a ha

/-! ## formulas that show all there is -/

/-- no connective of the formula, read with the sign, is without parts, and no quantifier in it that binds
the row variable speaks of some value only -/
inductive Exposes (row : String) : Bool → Term → Prop where
  | atomic {positive : Bool} {t : Term} : t.Nonlogical → Exposes row positive t
  | conj {positive : Bool} {args : List Term} : args ≠ [] → (∀ x ∈ args, Exposes row positive x) →
    Exposes row positive (.conj args)
  | disj {positive : Bool} {args : List Term} : args ≠ [] → (∀ x ∈ args, Exposes row positive x) →
    Exposes row positive (.disj args)
  | neg {positive : Bool} {t : Term} : Exposes row (!positive) t → Exposes row positive t.neg
  | implies {positive : Bool} {s t : Term} : Exposes row (!positive) s → Exposes row positive t →
    Exposes row positive (.implies s t)
  | iff {positive : Bool} {s t : Term} : (∀ sign, Exposes row sign s) → (∀ sign, Exposes row sign t) →
    Exposes row positive (.iff s t)
  | quantified {positive : Bool} {q : Quantifier} {names : List String} {body : Term} :
    (∀ n ∈ names, Name.isVariable n = true) → (row ∈ names → q.isUniversal positive = true) →
    Exposes row positive body → Exposes row positive (.quantified q.name names body)

theorem inScope_self {universal : Bool} {names : List String} {row : String}
    (h : row ∈ names → universal = true) : inScope universal names (· == row) (· == row) = (· == row) := by
  funext a
  show (if a ∈ names then universal && a == row else a == row) = (a == row)
  split
  · next ha =>
    cases he : a == row with
    | false => rw [Bool.and_false]
    | true => rw [h (beq_iff_eq.mp he ▸ ha), Bool.true_and]
  · rfl

/-- the clauses show all applications to the row variable -/
theorem Exposes.showing_eq (hr : Name.IsConstant r) {row : String} {t : Term}
    (h : t.Exposes row positive) :
    t.showing r (· == row) positive (· == row) = .ofBool (t.applies r (· == row)) := by
  have hargs : ∀ {args : List Term} {positive : Bool},
      (∀ x ∈ args, x.showing r (· == row) positive (· == row) = .ofBool (x.applies r (· == row))) →
      args.map (showing r (· == row) positive (· == row)) =
        args.map fun x => .ofBool (x.applies r (· == row)) := List.map_congr_left
  induction h with
  | atomic ht => exact ht.showing
  | @conj _ args hne _ ih =>
    rw [showing_conj, hargs ih, Showing.junction_map_ofBool _ _ hne, ← applies_apply hr .conj]
    rfl
  | @disj _ args hne _ ih =>
    rw [showing_disj, hargs ih, Showing.junction_map_ofBool _ _ hne, ← applies_apply hr .disj]
    rfl
  | neg _ ih =>
    rw [showing_neg, ih, Term.neg, applies_apply hr, List.any_cons, List.any_nil, Bool.or_false]
  | @implies positive s t _ _ ihs iht =>
    rw [showing_implies, ihs, iht, Showing.junction_ofBool_pair, Term.implies, applies_apply hr,
      List.any_cons, List.any_cons, List.any_nil, Bool.or_false]
  | @iff positive s t _ _ ihs iht =>
    rw [showing_iff, ihs, ihs, iht, iht, Showing.junction_ofBool_pair, Showing.junction_ofBool_pair,
      Showing.junction_ofBool_pair, Term.iff, applies_apply hr, Bool.or_comm (t.applies r _), Bool.or_self,
      List.any_cons, List.any_cons, List.any_nil, Bool.or_false]
  | quantified hnames hrow _ ih =>
    rw [showing_quantified, inScope_self hrow, ih, applies_quantified hr _ hnames]

end

end Term

end OntologyPrep
