import OntologyPrep.Arity
import OntologyPrep.Knowledge.Consultation
import OntologyPrep.Sort.Declared

/-!
# Inquiries

An inquiry is a computation that learns of a knowledge base by its answers only: it asks a question and
goes on with the answer, until it has its value.

* `Inquiry.result`   the value when a knowledge base gives the answers;
* `Inquiry.asked`    the questions that are asked then;
* `Inquiry.run`      the inquiry in a consulted knowledge base, which remembers superclasses from one
                     question to the next.  A declared position may be so high that no vector is as long
                     as the signature: where such a signature is asked for, there is no value.
-/

namespace OntologyPrep

/-! ## questions -/

/-- what a knowledge base can be asked -/
inductive Question where
  /-- the answers to a literal -/
  | literal (l : Literal)
  /-- the number of arguments of a relation -/
  | valence (relation : String)
  /-- which arguments of a relation are relations -/
  | signature (relation : String)
  /-- the class declared for an argument of the relation itself -/
  | argType (relation : String) (position : Nat)
  /-- the class of an argument, inherited if need be -/
  | searchType (relation : String) (position : Nat)
  | isSubclass (sub sup : String)
  | knows (t : Term)
  deriving DecidableEq, Repr

namespace Question

/-- the answers that a question can have -/
abbrev Answer : Question → Type
  | literal _ => List Term
  | valence _ => Int
  | signature _ => Option KnowledgeBase.Signature
  | argType _ _ | searchType _ _ => Option String
  | isSubclass _ _ | knows _ => Bool

/-- a vector can hold the answer -/
def Answer.fits : (q : Question) → q.Answer → Bool
  | signature _, answer => answer.all KnowledgeBase.Signature.fits
  | literal _, _ | valence _, _ | argType _ _, _ | searchType _ _, _ | isSubclass _ _, _
  | knows _, _ => true

end Question

/-- the answer that a knowledge base gives -/
def KnowledgeBase.answer (kb : KnowledgeBase) : (q : Question) → q.Answer
  | .literal l => kb.ask l
  | .valence relation => kb.valence relation
  | .signature relation => kb.signature? relation
  | .argType relation position => kb.argType? relation position
  | .searchType relation position => kb.searchType relation position
  | .isSubclass sub sup => kb.isSubclass sub sup
  | .knows t => kb.knows t

/-- the answer that a consulted knowledge base gives -/
def Consulted.answer : (q : Question) → StateM Consulted q.Answer
  | .literal l => ask l
  | .valence relation => valence relation
  | .signature relation => signature? relation
  | .argType relation position => return (← knowledge).argType? relation position
  | .searchType relation position => return (← knowledge).searchType relation position
  | .isSubclass sub sup => isSubclass sub sup
  | .knows t => return (← knowledge).knows t

/-! ## inquiries -/

/-- a computation that asks questions -/
inductive Inquiry (α : Type) where
  /-- a value, with nothing more to ask -/
  | done (value : α)
  /-- a question, and how to go on with its answer -/
  | asking (q : Question) (next : q.Answer → Inquiry α)

namespace Inquiry

variable {α β σ : Type}

/-- one inquiry after another, which depends on the value of the first one -/
def bind : Inquiry α → (α → Inquiry β) → Inquiry β
  | done value, f => f value
  | asking q next, f => asking q fun answer => (next answer).bind f

instance : Monad Inquiry where
  pure := done
  bind := bind

theorem bind_done (i : Inquiry α) : i.bind done = i := by
  induction i with
  | done value => rfl
  | asking q next ih => exact congrArg (asking q) (funext ih)

theorem bind_assoc {γ : Type} (i : Inquiry α) (f : α → Inquiry β) (g : β → Inquiry γ) :
    (i.bind f).bind g = i.bind fun value => (f value).bind g := by
  induction i with
  | done value => rfl
  | asking q next ih => exact congrArg (asking q) (funext ih)

instance : LawfulMonad Inquiry :=
  LawfulMonad.mk' Inquiry bind_done (fun _ _ => rfl) bind_assoc

/-- the value when the knowledge base gives the answers -/
def result (kb : KnowledgeBase) : Inquiry α → α
  | done value => value
  | asking q next => (next (kb.answer q)).result kb

/-- the questions that are asked when the knowledge base gives the answers -/
def asked (kb : KnowledgeBase) : Inquiry α → List Question
  | done _ => []
  | asking q next => q :: (next (kb.answer q)).asked kb

/-- the value when a consulted knowledge base gives the answers, as long as vectors can hold them -/
def run : Inquiry α → StateT Consulted Option α
  | done value => pure value
  | asking q next => fun s =>
    let answered := Consulted.answer q s
    match Question.Answer.fits q answered.1 with
    | true => (next answered.1).run answered.2
    | false => none

/-- a computation on a state that asks nothing -/
def silent (m : StateM σ α) : StateT σ Inquiry α := fun s => pure (m s)

/-! ## single questions -/

/-- the answers to a literal -/
def ask (l : Literal) : Inquiry (List Term) := asking (.literal l) done

/-- the number of arguments of a relation -/
def valence (relation : String) : Inquiry Int := asking (.valence relation) done

/-- which arguments of a relation are relations -/
def signature? (relation : String) : Inquiry (Option KnowledgeBase.Signature) :=
  asking (.signature relation) done

/-- the class declared for an argument of the relation itself -/
def argType? (relation : String) (position : Nat) : Inquiry (Option String) :=
  asking (.argType relation position) done

/-- the class of an argument, inherited if need be -/
def searchType (relation : String) (position : Nat) : Inquiry (Option String) :=
  asking (.searchType relation position) done

/-- the first class is below the second and is not the second -/
def isSubclass (sub sup : String) : Inquiry Bool := asking (.isSubclass sub sup) done

/-- the term has been told -/
def knows (t : Term) : Inquiry Bool := asking (.knows t) done

/-! ## argument counts -/

/-- the count that a relation wants; none if it is unknown or variable -/
def expectedArity? (relation : String) : Inquiry (Option Nat) :=
  match Operator.ofName? relation with
  | some .implies | some .iff => return some 2
  | _ => do
    let count ← valence relation
    return if 0 < count then some count.toNat else none

/-- the list that holds these elements, as an application of its own head -/
def checkApplication : List Term → ExceptT ArityError Inquiry Unit
  | .atom relation :: args =>
    match Name.isVariable relation || Name.isQuoted relation || args.any Term.isRowVariable with
    | true => pure ()
    | false => do
      match ← expectedArity? relation with
      | some expected =>
        if expected = args.length then pure () else throw ⟨relation, expected, args.length⟩
      | none => pure ()
  | _ => pure ()

/-- every application in the term, inner ones first -/
def checkArity : Term → ExceptT ArityError Inquiry Unit
  | .atom _ => pure ()
  | .list items =>
    match _h : (Term.list items).binder? with
    | some b => checkArity b.body
    | none => do
      let _ ← items.mapM checkArity
      checkApplication items
termination_by t => sizeOf t
decreasing_by
  · exact Term.sizeOf_body_lt ‹_›
  · decreasing_tactic

theorem checkArity_toTerm (b : Binder) : checkArity b.toTerm = checkArity b.body := by
  have h := Term.binder?_toTerm b
  rw [Binder.toTerm] at h ⊢
  rw [checkArity]
  split <;> simp_all

theorem checkArity_list {xs : List Term} (h : (Term.list xs).binder? = none) :
    checkArity (.list xs) = xs.mapM checkArity >>= fun _ => checkApplication xs := by
  rw [checkArity]
  split <;> simp_all

end Inquiry

end OntologyPrep
