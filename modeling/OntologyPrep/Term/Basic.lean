import OntologyPrep.Name

/-!
# Terms

A term is an atom or a list of terms; formulas, applications and quantified formulas are all terms.

* `Term`              the type, with decidable equality;
* `Term.items`, `Term.head?`, `Term.args`   a list taken apart;
* `Term.app`, `Term.conj`, `Term.neg`, ...   the shapes that the stages build;
* `Binder`            the view of `(forall entries body)` and `(exists entries body)`;
* `Term.binderInduction`   induction that treats a quantified formula as one case.

`Term.binder?_eq_some_iff` says that the view loses nothing: a term has the view `b` exactly if it
is the term that `b` stands for.
-/

namespace OntologyPrep

/-- an S-expression: an atom or a list -/
inductive Term where
  | atom (name : String)
  | list (items : List Term)
  deriving Repr, Inhabited

namespace Term

/-! ## equality -/

mutual

/-- equality of terms is decidable -/
def decEq : (s t : Term) → Decidable (s = t)
  | .atom a, .atom b =>
    if h : a = b then isTrue (h ▸ rfl) else isFalse fun e => h (by cases e; rfl)
  | .atom _, .list _ => isFalse nofun
  | .list _, .atom _ => isFalse nofun
  | .list xs, .list ys =>
    match decEqList xs ys with
    | isTrue h => isTrue (h ▸ rfl)
    | isFalse h => isFalse fun e => h (by cases e; rfl)

/-- equality of lists of terms is decidable -/
def decEqList : (xs ys : List Term) → Decidable (xs = ys)
  | [], [] => isTrue rfl
  | [], _ :: _ => isFalse nofun
  | _ :: _, [] => isFalse nofun
  | x :: xs, y :: ys =>
    match decEq x y with
    | isFalse h => isFalse fun e => h (by cases e; rfl)
    | isTrue h =>
      match decEqList xs ys with
      | isTrue hs => isTrue (by rw [h, hs])
      | isFalse hs => isFalse fun e => hs (by cases e; rfl)

end

instance : DecidableEq Term := decEq

/-! ## taking apart -/

/-- the elements of a list; an atom has none -/
def items : Term → List Term
  | .atom _ => []
  | .list xs => xs

/-- the spelling of an atom -/
def name? : Term → Option String
  | .atom a => some a
  | .list _ => none

/-- the term is a list -/
def isList : Term → Bool
  | .atom _ => false
  | .list _ => true

/-- the term is the empty list -/
def isEmptyList : Term → Bool
  | .list [] => true
  | _ => false

/-- the first element of a list -/
def first? (t : Term) : Option Term := t.items.head?

/-- a list without its first element; the empty list for anything else -/
def rest (t : Term) : Term := .list (t.items.drop 1)

/-- the head symbol: the first element, if it is an atom -/
def head? (t : Term) : Option String := t.first?.bind name?

/-- the elements after the first one -/
def args (t : Term) : List Term := t.items.drop 1

/-- the element at a position, counted from the head at 0 -/
def element? (t : Term) (position : Nat) : Option Term := t.items[position]?

/-- the atom at a position -/
def atomAt? (t : Term) (position : Nat) : Option String := (t.element? position).bind name?

/-- the operator that heads the term -/
def operator? (t : Term) : Option Operator := t.head?.bind Operator.ofName?

/-- the term is headed by a logical operator -/
def hasOperatorHead (t : Term) : Bool := t.operator?.isSome

@[simp] theorem items_atom (a : String) : (atom a).items = [] := rfl
@[simp] theorem items_list (xs : List Term) : (list xs).items = xs := rfl
@[simp] theorem name?_atom (a : String) : (atom a).name? = some a := rfl
@[simp] theorem name?_list (xs : List Term) : (list xs).name? = none := rfl
@[simp] theorem head?_atom (a : String) : (atom a).head? = none := rfl
@[simp] theorem head?_list_nil : (list []).head? = none := rfl
@[simp] theorem head?_list_cons (x : Term) (xs : List Term) :
    (list (x :: xs)).head? = x.name? := rfl

theorem name?_eq_some_iff {t : Term} {a : String} : t.name? = some a ↔ t = .atom a := by
  cases t <;> simp [name?]

/-- elements are smaller than the list that holds them -/
theorem sizeOf_lt_of_mem_items {t x : Term} (h : x ∈ t.items) : sizeOf x < sizeOf t := by
  cases t with
  | atom a => simp [items] at h
  | list xs =>
    have := List.sizeOf_lt_of_mem h
    simp only [items, list.sizeOf_spec] at *
    omega

/-! ## building -/

/-- a head put in front of the elements of a list, or in front of an atom -/
def cons (head tail : Term) : Term :=
  match tail with
  | .atom a => .list [head, .atom a]
  | .list xs => .list (head :: xs)

/-- the application of a symbol -/
def app (head : String) (args : List Term) : Term := .list (.atom head :: args)

/-- an operator applied to formulas -/
def apply (o : Operator) (args : List Term) : Term := app o.name args

/-- the conjunction of formulas -/
def conj (args : List Term) : Term := apply .conj args

/-- the disjunction of formulas -/
def disj (args : List Term) : Term := apply .disj args

/-- the negation of a formula -/
def neg (t : Term) : Term := apply .neg [t]

/-- the implication from one formula to another -/
def implies (s t : Term) : Term := apply .implies [s, t]

/-- the constant that always holds -/
def verum : Term := .atom trueName

/-- the constant that never holds -/
def falsum : Term := .atom falseName

/-- a symbol over a list of bound names and a body -/
def quantified (head : String) (names : List String) (body : Term) : Term :=
  app head [.list (names.map atom), body]

@[simp] theorem head?_app (h : String) (xs : List Term) : (app h xs).head? = some h := rfl
@[simp] theorem args_app (h : String) (xs : List Term) : (app h xs).args = xs := rfl

/-! ## what an atom or a list is -/

/-- an atom that is a variable of either kind -/
def isVariable (t : Term) : Bool := t.name?.any Name.isVariable

/-- an atom that is a variable for one individual -/
def isPlainVariable (t : Term) : Bool := t.name?.any Name.isPlainVariable

/-- an atom that is a variable for a row -/
def isRowVariable (t : Term) : Bool := t.name?.any Name.isRowVariable

/-- an atom that is a string literal -/
def isQuoted (t : Term) : Bool := t.name?.any Name.isQuoted

/-- an atom that is a logical operator -/
def isOperator (t : Term) : Bool := t.name?.any Name.isOperator

/-- a Skolem symbol, or a list that starts with a Skolem term -/
def isSkolem : Term → Bool
  | .atom a => Name.isSkolem a
  | .list [] => false
  | .list (x :: _) => x.isSkolem

/-- a formula without logical structure at its root -/
def isAtomic (t : Term) : Bool := !t.hasOperatorHead

end Term

/-! ## quantified formulas -/

/-- a quantified formula: the quantifier, the term that lists the bound names, and the body -/
structure Binder where
  quantifier : Quantifier
  entries : Term
  body : Term
  deriving Repr

namespace Binder

/-- the bound names: the atoms of the list of entries, or the one atom in its place -/
def names (b : Binder) : List String :=
  match b.entries with
  | .atom a => [a]
  | .list xs => xs.filterMap Term.name?

/-- the term that the view stands for -/
def toTerm (b : Binder) : Term := .list [.atom b.quantifier.name, b.entries, b.body]

end Binder

namespace Term

/-- the view of a three-element list that starts with a quantifier -/
def binder? : Term → Option Binder
  | .list [.atom h, entries, body] =>
    (Quantifier.ofName? h).map fun q => ⟨q, entries, body⟩
  | _ => none

theorem binder?_toTerm (b : Binder) : b.toTerm.binder? = some b := by
  simp [Binder.toTerm, binder?]

theorem binder?_eq_some_iff {t : Term} {b : Binder} : t.binder? = some b ↔ t = b.toTerm := by
  constructor
  · intro h
    unfold binder? at h
    split at h
    · obtain ⟨q, hq, rfl⟩ := Option.map_eq_some_iff.mp h
      rw [← Quantifier.name_of_ofName? hq]
      rfl
    · cases h
  · rintro rfl
    exact binder?_toTerm b

/-- the body of a quantified formula is smaller than the formula -/
theorem sizeOf_body_lt {t : Term} {b : Binder} (h : t.binder? = some b) :
    sizeOf b.body < sizeOf t := by
  rw [binder?_eq_some_iff.mp h, Binder.toTerm]
  simp only [list.sizeOf_spec, List.cons.sizeOf_spec]
  omega

@[simp] theorem binder?_atom (a : String) : (atom a).binder? = none := rfl

/-- the names that the term binds at its root; none if it is not quantified -/
def boundNames (t : Term) : List String :=
  match t.binder? with
  | some b => b.names
  | none => []

/-- induction on terms with a case of its own for quantified formulas -/
theorem binderInduction {motive : Term → Prop} (atom : ∀ a, motive (.atom a))
    (binder : ∀ b : Binder, motive b.body → motive b.toTerm)
    (list : ∀ xs, (list xs).binder? = none → (∀ x ∈ xs, motive x) → motive (.list xs)) :
    ∀ t, motive t
  | .atom a => atom a
  | .list xs =>
    match h : (Term.list xs).binder? with
    | some b =>
      binder?_eq_some_iff.mp h ▸ binder b (binderInduction atom binder list b.body)
    | none => list xs h fun x _ => binderInduction atom binder list x
termination_by t => sizeOf t
decreasing_by
  · exact sizeOf_body_lt h
  · decreasing_tactic

end Term

end OntologyPrep
