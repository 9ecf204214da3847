import OntologyPrep.Main
import OntologyPrep.Proofs.Meaning.Clausification
import OntologyPrep.Proofs.Predicate.Consequence
import OntologyPrep.Proofs.Preparation.Rounds
import OntologyPrep.Sort.Inference
import OntologyPrep.Term.Order
import OntologyPrep.Proofs.Preparation.Limit
import OntologyPrep.Proofs.Preparation.Account
import OntologyPrep.Proofs.Normal.Apart
import OntologyPrep.Proofs.Normal.Clausal
import OntologyPrep.Proofs.Normal.Mirror
import OntologyPrep.Proofs.Normal.Sources
import OntologyPrep.Proofs.Predicate.Independence
import OntologyPrep.Proofs.Text.Fault
import OntologyPrep.Proofs.Text.Rendering
import OntologyPrep.Proofs.Preparation.Readable
import OntologyPrep.Proofs.Meaning.Sorted
import OntologyPrep.Proofs.Knowledge.Consultation
import OntologyPrep.Proofs.Sort.Scope
import OntologyPrep.Proofs.Preparation.Current
import OntologyPrep.Proofs.Preparation.ClassFacts
import OntologyPrep.Proofs.Preparation.Untouched
import OntologyPrep.Proofs.Row.Exact
import OntologyPrep.Proofs.Row.Written
import OntologyPrep.Proofs.Normal.Symbols
import OntologyPrep.Proofs.Row.Governing
import OntologyPrep.Proofs.Meaning.NormalForm
import OntologyPrep.Proofs.Fresh.Binding
import OntologyPrep.Proofs.Normal.Recovery
import OntologyPrep.Proofs.Normal.Reclausified
import OntologyPrep.Proofs.Predicate.AskingOrder
import OntologyPrep.Proofs.Predicate.Merging
import OntologyPrep.Proofs.Knowledge.Answers
import OntologyPrep.Proofs.Sort.Winnowing
import OntologyPrep.Proofs.Sort.Agreement
import OntologyPrep.Proofs.Sort.Nearest
import OntologyPrep.Proofs.Arity
import OntologyPrep.Proofs.Knowledge.Signature
import OntologyPrep.Proofs.Text.Joining
import OntologyPrep.Proofs.Knowledge.Unifier
import OntologyPrep.Proofs.Term.Substitution
import OntologyPrep.Proofs.Fresh.Chain
import OntologyPrep.Proofs.Fresh.Requests
import OntologyPrep.Proofs.Inquiry.Preparation
