import Monomorph.Check
import Monomorph.Settings.Toml

/-!
# Settings

What a run may be told: which symbols are entry points, whether the core symbols are registered, whether
reports are colored. Settings are read from a TOML document; what is not given has its default, and keys
that mean nothing are ignored.
-/

namespace Monomorph

/-- The settings of a run. -/
structure Settings where
  /-- Paths of the entry points, as written. -/
  entries : List String
  withCore : Bool
  color : Bool
  deriving DecidableEq, Inhabited, Repr

namespace Settings

/-- No entry points, with the core symbols, without color. -/
def default : Settings := ⟨[], true, false⟩

def withEntry (entry : String) : Settings := { default with entries := [entry] }

def entryPoints (s : Settings) : List Path := s.entries.map Path.parse

/-- The settings as a check needs them. -/
def checkOptions (s : Settings) : CheckOptions := ⟨s.entryPoints, s.withCore⟩

/-- How the error of a text that is no settings document begins. -/
def parseError : String := "Failed to parse check config"

/-- How the error of a file that cannot be read begins. -/
def readError (file : String) : String := s!"Failed to read {file}"

/-- The value of a field that a section may have: by its name in a table, by its position in an array. A
date has none of the fields. -/
def field? (name : String) (position : Nat) : Toml → Option (Option Toml)
  | .table _ entries => some (entries.lookup name)
  | .array _ elements => some elements[position]?
  | .date => some none
  | _ => none

/-- Read a truth value, if there is one. -/
def boolean? (default : Bool) : Option Toml → Option Bool
  | none => some default
  | some (.boolean value) => some value
  | some _ => none

/-- Read a list of strings, if there is one. -/
def strings? : Option Toml → Option (List String)
  | none => some []
  | some (.array _ elements) =>
    elements.mapM fun e =>
      match e with
      | .string value => some value
      | _ => none
  | some _ => none

/-- Read settings from a document. A section is a table, an array of its fields in order, or
a date, which leaves all of them out. -/
def ofToml? (document : Toml) : Option Settings := do
  let empty := Toml.table .header []
  let check := (← field? "check" 0 document).getD empty
  let diagnostics := (← field? "diagnostics" 1 document).getD empty
  let entries ← strings? (← field? "entry" 0 check)
  let withCore ← boolean? true (← field? "builtins" 1 check)
  let color ← boolean? false (← field? "color" 0 diagnostics)
  return ⟨entries, withCore, color⟩

/-- Read settings from the text of a document. -/
def ofText? (text : String) : Option Settings := (Toml.ofText? text).bind ofToml?

end Settings
end Monomorph
