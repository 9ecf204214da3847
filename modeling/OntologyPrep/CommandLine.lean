import OntologyPrep.Clause.Form
import OntologyPrep.Inquiry.Preparation
import OntologyPrep.Preparation.SettingsText
import OntologyPrep.Text.Json

/-!
# The command line

Two commands: one prepares the formulas of a file, the other prints their clauses.  A command is
carried out in any monad that can read files; what it writes and how it ends is its `Report`.  There is
none if a signature is asked for that no vector holds.
-/

namespace OntologyPrep

/-- what to do -/
inductive Command where
  | prepare (file : String) (knowledge : List String) (settings : Option String)
      (query json : Bool)
  | clausify (file : String)
  deriving DecidableEq, Repr

/-- what a command has written, and whether it succeeded -/
structure Report where
  output : String
  errors : String
  success : Bool
  deriving DecidableEq, Repr

/-- reading a file: its text, or why there is none -/
abbrev FileReader (m : Type → Type) := String → m (Except String String)

/-! ## arguments -/

namespace Command

/-- the options of the command that prepares; a second file is not one of them -/
def addArguments (file : Option String) (knowledge : List String) (settings : Option String)
    (query json : Bool) : List String → Option Command
  | [] => file.map fun f => .prepare f knowledge.reverse settings query json
  | "--kb" :: path :: rest => addArguments file (path :: knowledge) settings query json rest
  | "--config" :: path :: rest =>
    if settings.isSome then none
    else addArguments file knowledge (some path) query json rest
  | "--query" :: rest =>
    if query then none else addArguments file knowledge settings true json rest
  | "--json" :: rest =>
    if json then none else addArguments file knowledge settings query true rest
  | "--" :: rest =>
    match file, rest with
    | some f, [] | none, [f] => some (.prepare f knowledge.reverse settings query json)
    | _, _ => none
  | argument :: rest =>
    if file.isSome || (argument ≠ "-" && argument.toList.head? = some '-') then none
    else addArguments (some argument) knowledge settings query json rest

/-- an argument of the form `--option=value` taken apart -/
def splitArgument (argument : String) : List String :=
  match argument.toList.span (· ≠ '=') with
  | ('-' :: '-' :: option, '=' :: value) =>
    [String.ofList ('-' :: '-' :: option), String.ofList value]
  | _ => [argument]

/-- arguments taken apart, up to the one behind which there are no options -/
def splitArguments : List String → List String
  | [] => []
  | "--" :: rest => "--" :: rest
  | argument :: rest => splitArgument argument ++ splitArguments rest

/-- the command that arguments ask for -/
def ofArguments : List String → Option Command
  | "preprocess" :: rest => addArguments none [] none false false (splitArguments rest)
  | ["clausify", file] | ["clausify", "--", file] => some (.clausify file)
  | _ => none

end Command

/-! ## reading -/

/-- the diagnostic for a file that cannot be read -/
def unreadable (path reason : String) : Diagnostic where
  code := "E-IO"
  message := "failed to read " ++ path ++ ": " ++ reason
  span := none
  source := none

/-- the diagnostic for settings that cannot be read -/
def unreadableSettings (path reason : String) : Diagnostic where
  code := "E-CONFIG"
  message := "failed to read config " ++ path ++ ": " ++ reason
  span := none
  source := some path

namespace FileReader

variable {m : Type → Type} [Monad m]

/-- the formulas of a file -/
def formulas (read : FileReader m) (path : String) : ExceptT Diagnostic m (List Formula) := do
  match ← (read path : m _) with
  | .error reason => throw (unreadable path reason)
  | .ok text =>
    match Formula.readAll text (some path) with
    | .ok fs => return fs
    | .error e => throw ((e.toDiagnostic text).withSource (some path))

/-- the knowledge base of some files, read one after another -/
def knowledge (read : FileReader m) (paths : List String) : ExceptT Diagnostic m KnowledgeBase :=
  paths.foldlM (fun kb path => return kb.tellAll ((← formulas read path).filterMap Formula.term))
    .empty

/-- the settings of a file, if there is one -/
def settings (read : FileReader m) : Option String → ExceptT Diagnostic m Settings
  | none => pure {}
  | some path => do
    match ← (read path : m _) with
    | .error reason => throw (unreadableSettings path reason)
    | .ok text =>
      match Settings.ofText text with
      | .ok s => return s
      | .error e => throw (e.toDiagnostic.withSource (some path))

end FileReader

/-! ## writing -/

/-- some texts, each on a line of its own -/
def inLines (texts : List String) : String := String.join (texts.map (· ++ "\n"))

namespace Span

/-- the stretch as a JSON value -/
def toJson (s : Span) : Json :=
  .ofFields [("start", .number s.start), ("end", .number s.stop), ("line", .number s.line),
    ("column", .number s.column)]

end Span

namespace Diagnostic

/-- the diagnostic as a JSON value -/
def toJson (d : Diagnostic) : Json :=
  .ofFields [("code", .text d.code), ("message", .text d.message),
    ("span", .ofOption Span.toJson d.span), ("source", .ofOption .text d.source)]

end Diagnostic

namespace Formula

/-- text and origin of the formula as a JSON value -/
def toJson (f : Formula) : Json :=
  .ofFields [("text", .text f.text), ("source_file", .ofOption .text f.source),
    ("start_line", .ofOption .number f.line)]

end Formula

namespace Report

/-- the report of a command that could not start -/
def failed (d : Diagnostic) : Report := ⟨"", inLines [d.render], false⟩

/-- the report of prepared formulas and of what there is to tell; warnings do no harm -/
def ofPrepared (json : Bool) (accepted : List Formula) (diagnostics : List Diagnostic) : Report :=
  let success := diagnostics.all Diagnostic.isWarning
  if json then
    let value := Json.ofFields [("formulas", .array (accepted.map Formula.toJson)),
      ("diagnostics", .array (diagnostics.map Diagnostic.toJson))]
    ⟨inLines [value.render], "", success⟩
  else ⟨inLines (accepted.map Formula.text), inLines (diagnostics.map Diagnostic.render), success⟩

end Report

/-! ## commands -/

/-- the clauses of terms, one after another -/
def clausesOf (ts : List Term) : StateM Supply (List Clause) := do
  let forms ← ts.mapM ClausalForm.ofTerm
  return forms.flatMap ClausalForm.clauses

namespace Command

variable {m : Type → Type} [Monad m]

/-- the report of a command, unless a file is missing or wrong -/
def report (read : FileReader m) : Command → ExceptT Diagnostic m (Option Report)
  | prepare file knowledge settings query json => do
    let chosen ← FileReader.settings read settings
    let kb ← FileReader.knowledge read knowledge
    let fs ← FileReader.formulas read file
    let found := (Inquiry.prepareAll chosen query fs (.start ⟨0⟩)).run (.start kb)
    return found.map fun r =>
      .ofPrepared json r.1.1.1 (r.1.1.2.flatMap Formula.diagnostics)
  | clausify file => do
    let fs ← FileReader.formulas read file
    let clauses := (clausesOf (fs.filterMap Formula.term) ⟨0⟩).1
    return some ⟨inLines (clauses.map fun c => c.toTerm.render), "", true⟩

/-- a command carried out -/
def run (read : FileReader m) (c : Command) : m (Option Report) := do
  match ← (c.report read).run with
  | .ok r => return r
  | .error d => return some (.failed d)

end Command

end OntologyPrep
