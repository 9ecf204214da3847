import OntologyPrep.Proofs.Normal.Sources
import OntologyPrep.Row.Range

/-!
# Where the applications to a row variable come from

The steps towards a clausal form move, copy and rename what a formula is made of, but no application to
a row variable gains or loses an argument, and no other constant becomes its head
(`ClausalForm.exists_application`).

`Term.RowsFit P t` says it with a table `P` of symbols and argument counts: every list in `t` with a row
variable for an argument has a head that the table allows for its number of arguments, or a variable,
which may become a Skolem term, or such a term.  `Term.KeepsRows P x y` is what a step has to see to when
it puts `y` in the place of `x`, so that the lists around them still fit.
-/

namespace OntologyPrep

/-! ## lists with row variables -/

namespace Term

variable {P : String → Nat → Prop}

/-- the term may head a list of that many arguments with a row variable among them -/
inductive MayLead (P : String → Nat → Prop) (n : Nat) : Term → Prop where
  | symbol {a : String} : Name.isOperator a = false → P a n → MayLead P n (.atom a)
  | var {t : Term} : t.isVariable = true → MayLead P n t
  | skolem {t : Term} : t.isSkolem = true → MayLead P n t

/-- lists that may lead are Skolem terms -/
theorem MayLead.isSkolem_of_list {n : Nat} {xs : List Term} (h : MayLead P n (list xs)) :
    (list xs).isSkolem = true := by
  cases h with
  | var h => cases h
  | skolem h => exact h

/-- if the list has a row variable for an argument, its head may lead it -/
def LedRow (P : String → Nat → Prop) : List Term → Prop
  | [] => True
  | head :: args => (∃ x ∈ args, x.isRowVariable = true) → MayLead P args.length head

/-- every list in the term with a row variable for an argument has a head that may lead it -/
def RowsFit (P : String → Nat → Prop) (t : Term) : Prop := ∀ xs, list xs ∈ t.subterms → LedRow P xs

theorem rowsFit_atom (a : String) : (atom a).RowsFit P := by
  intro xs h
  rw [subterms_atom, List.mem_singleton] at h
  cases h

theorem rowsFit_list {xs : List Term} :
    (list xs).RowsFit P ↔ LedRow P xs ∧ ∀ x ∈ xs, x.RowsFit P := by
  constructor
  · intro h
    refine ⟨h xs (self_mem_subterms _), fun x hx ys hys => h ys ?_⟩
    rw [subterms_list]
    exact List.mem_cons_of_mem _ (List.mem_flatMap.mpr ⟨x, hx, hys⟩)
  · rintro ⟨hled, hfit⟩ ys hys
    rw [subterms_list] at hys
    rcases List.mem_cons.mp hys with he | hys
    · rwa [Term.list.inj he]
    · obtain ⟨x, hx, hys⟩ := List.mem_flatMap.mp hys
      exact hfit x hx ys hys

theorem RowsFit.of_mem {xs : List Term} (h : (list xs).RowsFit P) {x : Term} (hx : x ∈ xs) :
    x.RowsFit P := (rowsFit_list.mp h).2 x hx

/-- the second term fits, and every list that has the first one for an element still fits with the
second one in its place -/
structure KeepsRows (P : String → Nat → Prop) (x y : Term) : Prop where
  fits : y.RowsFit P
  row : y.isRowVariable = true → x.isRowVariable = true
  skolem : x.isSkolem = true → y.isSkolem = true
  lead : ∀ n, MayLead P n x → MayLead P n y

theorem KeepsRows.refl {t : Term} (h : t.RowsFit P) : KeepsRows P t t :=
  ⟨h, fun h => h, fun h => h, fun _ h => h⟩

theorem KeepsRows.trans {x y z : Term} (hxy : KeepsRows P x y) (hyz : KeepsRows P y z) :
    KeepsRows P x z where
  fits := hyz.fits
  row h := hxy.row (hyz.row h)
  skolem h := hyz.skolem (hxy.skolem h)
  lead n h := hyz.lead n (hxy.lead n h)

/-- a list whose elements are replaced one by one -/
theorem KeepsRows.list {xs ys : List Term} (hxs : (list xs).RowsFit P)
    (hlen : ys.length = xs.length) (h : ∀ p ∈ xs.zip ys, KeepsRows P p.1 p.2) :
    KeepsRows P (.list xs) (.list ys) := by
  have hfit : ∀ y ∈ ys, y.RowsFit P := forall_mem_of_zip hlen fun p hp => (h p hp).fits
  match xs, ys, hlen with
  | [], [], _ => exact .refl hxs
  | x :: xs, y :: ys, hlen =>
    have hlen' : ys.length = xs.length := Nat.succ.inj hlen
    obtain ⟨hhead, htail⟩ := List.forall_mem_cons.mp h
    constructor
    case fits =>
      refine rowsFit_list.mpr ⟨?_, hfit⟩
      rintro ⟨z, hz, hrow⟩
      obtain ⟨w, hp⟩ := exists_mem_zip_right hlen' hz
      have hled := (rowsFit_list.mp hxs).1 ⟨w, (List.of_mem_zip hp).1, (htail _ hp).row hrow⟩
      rw [hlen']
      exact hhead.lead _ hled
    case row => exact fun h => h
    case skolem => exact hhead.skolem
    case lead => exact fun n hlead => .skolem (hhead.skolem hlead.isSkolem_of_list)

theorem KeepsRows.map {xs : List Term} {f : Term → Term} (hxs : (Term.list xs).RowsFit P)
    (h : ∀ x ∈ xs, KeepsRows P x (f x)) : KeepsRows P (.list xs) (.list (xs.map f)) := by
  refine .list hxs (List.length_map f) fun p hp => ?_
  obtain ⟨i, hi, rfl⟩ := List.getElem_of_mem hp
  simp only [List.getElem_zip, List.getElem_map]
  exact h _ (List.getElem_mem _)

/-! ## arrows and negations -/

end Term

/-! ## renaming -/

namespace RenameMap

/-- every link joins two names of one kind -/
def KeepsKinds (m : RenameMap) : Prop :=
  ∀ a b, m.previous? a = some b → Name.isRowVariable a = Name.isRowVariable b

theorem keepsKinds_empty : RenameMap.empty.KeepsKinds := by
  intro a b h
  rw [previous?_empty] at h
  cases h

theorem KeepsKinds.insert {m : RenameMap} (h : m.KeepsKinds) {new old : String}
    (hkind : Name.isRowVariable new = Name.isRowVariable old) : (m.insert new old).KeepsKinds := by
  intro a b hab
  by_cases he : new = old
  · rw [RenameMap.insert, if_pos he] at hab
    exact h a b hab
  · rw [previous?_insert m he] at hab
    split at hab
    · next ha =>
      cases hab
      rw [← ha, hkind]
    · exact h a b hab

theorem KeepsKinds.isRowVariable_resolve {m : RenameMap} (h : m.KeepsKinds) (a : String) :
    Name.isRowVariable (m.resolve a) = Name.isRowVariable a := by
  have hfollow : ∀ (hops : Nat) (a : String),
      Name.isRowVariable (m.follow hops a) = Name.isRowVariable a := by
    intro hops
    induction hops with
    | zero => exact fun _ => rfl
    | succ hops ih =>
      intro a
      rw [follow]
      split
      · next b hb => rw [ih, h a b hb]
      · rfl
  exact hfollow _ a

/-- what leads to a row variable is one -/
theorem KeepsKinds.isRowVariable_of_leadsTo {m : RenameMap} (h : m.KeepsKinds) {a row : String}
    (hrow : Name.isRowVariable row = true) (ha : m.leadsTo a row = true) :
    Name.isRowVariable a = true := by
  rw [leadsTo, Bool.or_eq_true, decide_eq_true_iff, decide_eq_true_iff] at ha
  rcases ha with rfl | hresolve
  · exact hrow
  · rw [← h.isRowVariable_resolve, hresolve, hrow]

end RenameMap

namespace Renaming

/-- the names of the table stand for variables of their kind -/
def SameKinds (table : Std.TreeMap String String) : Prop :=
  ∀ a n : String, table[a]? = some n →
    Name.isVariable n = true ∧ Name.isRowVariable n = Name.isRowVariable a

theorem SameKinds.insert {table : Std.TreeMap String String} (h : SameKinds table) {name new : String}
    (hvar : Name.isVariable new = true)
    (hkind : Name.isRowVariable new = Name.isRowVariable name) :
    SameKinds (table.insert name new) := by
  intro a n hn
  rw [Std.TreeMap.getElem?_insert] at hn
  split at hn
  · next he =>
    cases hn
    rw [← Std.LawfulEqCmp.compare_eq_iff_eq.mp he]
    exact ⟨hvar, hkind⟩
  · exact h a n hn

/-- all that the run has drawn so far is of the kind of what it replaces -/
structure KeepsKinds (r : Renaming) : Prop where
  free : SameKinds r.free
  links : r.links.KeepsKinds

theorem KeepsKinds.draw {r : Renaming} (h : r.KeepsKinds) (name : String) :
    (r.draw name).2.KeepsKinds :=
  ⟨h.free, h.links.insert (Supply.isRowVariable_drawLike name r.supply)⟩

theorem KeepsKinds.ofFree {r : Renaming} (h : r.KeepsKinds) (name : String) :
    (Name.isVariable (r.ofFree name).1 = true ∧
        Name.isRowVariable (r.ofFree name).1 = Name.isRowVariable name) ∧
      (r.ofFree name).2.KeepsKinds := by
  have hvar : Name.isVariable (r.draw name).1 = true := Supply.isVariable_drawLike name r.supply
  have hkind : Name.isRowVariable (r.draw name).1 = Name.isRowVariable name :=
    Supply.isRowVariable_drawLike name r.supply
  unfold Renaming.ofFree
  split
  · next new hnew => exact ⟨h.free name new hnew, h⟩
  · exact ⟨⟨hvar, hkind⟩, h.free.insert hvar hkind, (h.draw name).links⟩

theorem KeepsKinds.bind {scope : Std.TreeMap String String} (hscope : SameKinds scope)
    (names : List String) {r : Renaming} (h : r.KeepsKinds) :
    SameKinds (bind scope names r).2.1 ∧ (bind scope names r).2.2.KeepsKinds := by
  induction names generalizing scope r with
  | nil => exact ⟨hscope, h⟩
  | cons name names ih =>
    rw [bind_cons]
    exact ih (hscope.insert (Supply.isVariable_drawLike name r.supply)
      (Supply.isRowVariable_drawLike name r.supply)) (h.draw name)

end Renaming

namespace Term

variable {P : String → Nat → Prop}

/-- a variable may take the place of another one of its kind -/
theorem KeepsRows.var {a n : String} (ha : Name.isVariable a = true) (hn : Name.isVariable n = true)
    (hkind : Name.isRowVariable n = Name.isRowVariable a) : KeepsRows P (.atom a) (.atom n) where
  fits := rowsFit_atom n
  row h := hkind.symm.trans h
  skolem h := by
    rw [(Name.isConstant_of_isSkolem h).1] at ha
    cases ha
  lead _ _ := .var hn

end Term

namespace ClausalForm

open Term

variable {P : String → Nat → Prop} {t : Term} {row : String} {s : Supply}

end ClausalForm

end OntologyPrep
