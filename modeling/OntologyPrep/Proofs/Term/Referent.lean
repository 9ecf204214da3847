import OntologyPrep.Proofs.State
import OntologyPrep.Proofs.Term.Bound

/-!
# What the variables of a term refer to

The entries of the lists of bound names in a term are numbered in the order of `Term.bound`.
`Term.referents` says of each occurrence of a variable, entries included, which entry it refers to, or
that it is free: an entry refers to itself, and any other occurrence to the last entry of its name in the
innermost quantified formula around it that has one.

* `Term.mem_referents`     what is referred to is a free variable of the term or one of its entries;
* `Term.BindsVariables`    all lists of bound names are lists of variables.
-/

namespace OntologyPrep

/-- what an occurrence of a variable refers to: a free name, or an entry by its number -/
inductive Referent where
  | free (name : String)
  | entry (number : Nat)
  deriving DecidableEq, Repr

namespace Referent

/-- what names refer to among some entries with numbers from `next` on, and outside of them what the scope
says -/
def enter (scope : String → Referent) : List String → Nat → String → Referent
  | [], _ => scope
  | n :: ns, next => enter (fun a => if a = n then .entry next else scope a) ns (next + 1)

/-- some entries one after another -/
def entries (next count : Nat) : List Referent := (List.range' next count).map entry

variable {scope : String → Referent} {names : List String} {a : String}

theorem enter_of_not_mem (h : a ∉ names) (next : Nat) : enter scope names next a = scope a := by
  induction names generalizing scope next with
  | nil => rfl
  | cons n ns ih =>
    rw [List.mem_cons, not_or] at h
    rw [enter, ih h.2, if_neg h.1]

theorem enter_of_mem (h : a ∈ names) (next : Nat) :
    enter scope names next a ∈ entries next names.length := by
  induction names generalizing scope next with
  | nil => cases h
  | cons n ns ih =>
    rw [enter, List.length_cons, entries, List.range'_succ, List.map_cons, ← entries]
    by_cases hns : a ∈ ns
    · exact List.mem_cons_of_mem _ (ih hns (next + 1))
    · rw [enter_of_not_mem hns, if_pos ((List.mem_cons.mp h).resolve_right hns)]
      exact List.mem_cons_self

theorem entries_add (next m n : Nat) :
    entries next (m + n) = entries next m ++ entries (next + m) n := by
  rw [entries, entries, entries, ← List.map_append, List.range'_append_1]

end Referent

namespace Term

/-- the occurrences of variables, from left to right -/
def variableOccurrences (t : Term) : List String := t.atoms.filter Name.isVariable

theorem variableOccurrences_atom (a : String) :
    (atom a).variableOccurrences = if Name.isVariable a then [a] else [] := by
  rw [variableOccurrences, atoms_atom, List.filter_cons, List.filter_nil]

theorem variableOccurrences_list (xs : List Term) :
    (list xs).variableOccurrences = xs.flatMap variableOccurrences := by
  rw [variableOccurrences, atoms_list, List.filter_flatMap]
  rfl

/-- what the occurrences of variables refer to, from left to right; the state is the number of the next
entry -/
def resolve (scope : String → Referent) : Term → StateM Nat (List Referent)
  | .atom a => pure (if Name.isVariable a then [scope a] else [])
  | .list items =>
    match _h : (Term.list items).binder? with
    | some b => fun next =>
      let inner := Referent.enter scope b.names next
      let (inside, after) := b.body.resolve inner (next + b.names.length)
      (Referent.entries next b.names.length ++ inside, after)
    | none => return (← items.mapM (resolve scope)).flatten
termination_by t => sizeOf t
decreasing_by
  · exact sizeOf_body_lt ‹_›
  · decreasing_tactic

/-- what the occurrences of variables refer to where no name is bound outside of the term -/
def referents (t : Term) : List Referent := (t.resolve .free 0).1

theorem resolve_atom (scope : String → Referent) (a : String) (next : Nat) :
    (atom a).resolve scope next = (if Name.isVariable a then [scope a] else [], next) := by
  rw [resolve]
  rfl

theorem resolve_binder (scope : String → Referent) (b : Binder) (next : Nat) :
    b.toTerm.resolve scope next =
      (Referent.entries next b.names.length ++
          (b.body.resolve (Referent.enter scope b.names next) (next + b.names.length)).1,
        (b.body.resolve (Referent.enter scope b.names next) (next + b.names.length)).2) := by
  have h := binder?_toTerm b
  rw [Binder.toTerm] at h ⊢
  have hrun : (Term.list [.atom b.quantifier.name, b.entries, b.body]).resolve scope = fun next =>
      (Referent.entries next b.names.length ++
          (b.body.resolve (Referent.enter scope b.names next) (next + b.names.length)).1,
        (b.body.resolve (Referent.enter scope b.names next) (next + b.names.length)).2) := by
    rw [resolve]
    split
    · next b' hb' =>
      rw [h] at hb'
      cases hb'
      rfl
    · next hn =>
      rw [h] at hn
      cases hn
  exact congrFun hrun next

theorem resolve_list (scope : String → Referent) {xs : List Term} (h : (list xs).binder? = none)
    (next : Nat) : (list xs).resolve scope next =
      ((xs.mapM (resolve scope) next).1.flatten, (xs.mapM (resolve scope) next).2) := by
  have hrun : (list xs).resolve scope = fun next =>
      ((xs.mapM (resolve scope) next).1.flatten, (xs.mapM (resolve scope) next).2) := by
    rw [resolve]
    split
    · next b hb =>
      rw [h] at hb
      cases hb
    · rfl
  exact congrFun hrun next

theorem mapM_resolve_snd {scope : String → Referent} {xs : List Term}
    (h : ∀ x ∈ xs, ∀ next, (x.resolve scope next).2 = next + x.bound.length) (next : Nat) :
    (xs.mapM (resolve scope) next).2 = next + (xs.flatMap bound).length := by
  induction xs generalizing next with
  | nil => rfl
  | cons x xs ih =>
    obtain ⟨hx, hxs⟩ := List.forall_mem_cons.mp h
    rw [State.mapM_cons_apply, ih hxs, hx, List.flatMap_cons, List.length_append, Nat.add_assoc]

/-- every entry takes one number -/
theorem resolve_snd (t : Term) (scope : String → Referent) (next : Nat) :
    (t.resolve scope next).2 = next + t.bound.length := by
  induction t using binderInduction generalizing scope next with
  | atom a => rw [resolve_atom, bound_atom, List.length_nil, Nat.add_zero]
  | binder b ih => rw [resolve_binder, ih, bound_binder, List.length_append, Nat.add_assoc]
  | list xs hb ih =>
    rw [resolve_list scope hb, mapM_resolve_snd (fun x hx next => ih x hx scope next), bound_list hb]

/-- what is referred to is what the scope says of a free variable, or an entry of the term -/
theorem mem_resolve {t : Term} {scope : String → Referent} {next : Nat} {r : Referent}
    (hr : r ∈ (t.resolve scope next).1) :
    (∃ a ∈ t.freeVariables, r = scope a) ∨ r ∈ Referent.entries next t.bound.length := by
  induction t using binderInduction generalizing scope next with
  | atom a =>
    rw [resolve_atom] at hr
    by_cases ha : Name.isVariable a = true
    · rw [if_pos ha, List.mem_singleton] at hr
      exact .inl ⟨a, mem_freeVariables_atom.mpr ⟨ha, rfl⟩, hr⟩
    · rw [if_neg ha] at hr
      cases hr
  | binder b ih =>
    rw [bound_binder, List.length_append, Referent.entries_add, List.mem_append]
    rw [resolve_binder, List.mem_append] at hr
    rcases hr with hr | hr
    · exact .inr (.inl hr)
    · rcases ih hr with ⟨a, ha, rfl⟩ | hr
      · by_cases hn : a ∈ b.names
        · exact .inr (.inl (Referent.enter_of_mem hn next))
        · exact .inl ⟨a, mem_freeVariables_binder.mpr ⟨ha, hn⟩, Referent.enter_of_not_mem hn next⟩
      · exact .inr (.inr hr)
  | list xs hb ih =>
    rw [resolve_list scope hb] at hr
    rw [bound_list hb]
    suffices h : (∃ x ∈ xs, ∃ a ∈ x.freeVariables, r = scope a) ∨
        r ∈ Referent.entries next (xs.flatMap bound).length by
      refine h.imp_left fun ⟨x, hx, a, ha, he⟩ => ⟨a, (mem_freeVariables_list hb).mpr ⟨x, hx, ha⟩, he⟩
    clear hb
    induction xs generalizing next with
    | nil => cases hr
    | cons x xs ihxs =>
      obtain ⟨hx, hxs⟩ := List.forall_mem_cons.mp ih
      rw [List.flatMap_cons, List.length_append, Referent.entries_add, List.mem_append]
      rw [State.mapM_cons_apply, List.flatten_cons, List.mem_append, resolve_snd] at hr
      rcases hr with hr | hr
      · exact (hx hr).imp (fun h => ⟨x, List.mem_cons_self, h⟩) .inl
      · refine (ihxs hxs hr).imp (fun ⟨y, hy, h⟩ => ⟨y, List.mem_cons_of_mem _ hy, h⟩) .inr

/-- what is referred to is a free variable or an entry of the term -/
theorem mem_referents {t : Term} {r : Referent} (hr : r ∈ t.referents) :
    (∃ a ∈ t.freeVariables, r = .free a) ∨ r ∈ Referent.entries 0 t.bound.length := mem_resolve hr

/-- every list of bound names is a list of variables -/
inductive BindsVariables : Term → Prop where
  | atom (a : String) : BindsVariables (.atom a)
  | quantified {q : Quantifier} {names : List String} {body : Term} :
    (∀ n ∈ names, Name.isVariable n = true) → BindsVariables body →
    BindsVariables (.quantified q.name names body)
  | list {xs : List Term} : (Term.list xs).binder? = none → (∀ x ∈ xs, BindsVariables x) →
    BindsVariables (.list xs)

end Term

end OntologyPrep
