import OntologyPrep.Diagnostic
import OntologyPrep.Preparation.Settings
import OntologyPrep.Text.Toml

/-!
# Settings as text

A settings text is TOML that gives values to some of the settings, each at most once.  The limit is a
number of 64 bits.
-/

namespace OntologyPrep

/-- why a text gives no settings -/
inductive SettingsError where
  /-- a line is not TOML, or more of it than a settings text may use -/
  | malformed (line : Nat)
  | unknownKey (key : String)
  | duplicateKey (key : String)
  | wrongValue (key : String)
  deriving DecidableEq, Repr

namespace SettingsError

/-- the cause in words -/
def reason : SettingsError → String
  | malformed line => "malformed line " ++ toString line
  | unknownKey key => "unknown key " ++ key
  | duplicateKey key => "duplicate key " ++ key
  | wrongValue key => "wrong value for " ++ key

/-- the diagnostic for a text that gives no settings -/
def toDiagnostic (e : SettingsError) : Diagnostic where
  code := "E-CONFIG"
  message := "invalid preprocessor config: " ++ e.reason
  span := none
  source := none

end SettingsError

namespace Settings

/-- the keys of the settings -/
def keys : List String :=
  ["add_type_restrictions", "holds_prefix", "check_arity", "expansion_limit",
   "non_ascii_placeholder"]

/-- a setting given its value, if the value is of its kind -/
def set? (s : Settings) (e : Toml.Entry) : Option Settings :=
  match e.key, e.value with
  | "add_type_restrictions", .bool b => some { s with addTypeRestrictions := b }
  | "holds_prefix", .bool b => some { s with holdsPrefix := b }
  | "check_arity", .bool b => some { s with checkArity := b }
  | "expansion_limit", .integer n =>
    if 0 ≤ n && n.toNat < UInt64.size then some { s with expansionLimit := n.toNat } else none
  | "non_ascii_placeholder", .text t => some { s with placeholder := t }
  | _, _ => none

/-- the settings with the values of some entries; `given` are the keys before them -/
def setAll (s : Settings) (given : List String) :
    List Toml.Entry → Except SettingsError Settings
  | [] => .ok s
  | e :: es =>
    if !keys.contains e.key then .error (.unknownKey e.key)
    else if given.contains e.key then .error (.duplicateKey e.key)
    else
      match s.set? e with
      | some s' => setAll s' (e.key :: given) es
      | none => .error (.wrongValue e.key)

/-- the settings that a text gives -/
def ofText (text : String) : Except SettingsError Settings :=
  match Toml.entries text with
  | .ok es => setAll {} [] es
  | .error line => .error (.malformed line)

end Settings

end OntologyPrep
