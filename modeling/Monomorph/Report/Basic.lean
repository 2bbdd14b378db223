import Monomorph.Source.Map
import Monomorph.TypeError

/-!
# Reports

A report shows a type error to a person: a heading with code and message, the places involved with a text
at each, and notes. Places are given as ranges of one file, clamped to the file's text and never empty
unless at its end. How a report is drawn is left to a `Renderer`.
-/

namespace Monomorph

/-- A range of a file. -/
structure FileRange where
  file : SourceFile
  start : Nat
  stop : Nat

/-- A text at a place. -/
structure Label where
  place : FileRange
  text : String

/-- What a report says. Without a known file there is only a heading. -/
structure Report where
  code : String
  message : String
  primary : Option FileRange
  labels : List Label
  notes : List String
  help : List String

namespace Report

/-- A span as a range of its file, clamped to the text. An empty range gets one byte more if there is
one. -/
def resolve? (sources : SourceMap) (span : Span) : Option FileRange := do
  let file ← sources.get? span.file
  let size := file.text.utf8ByteSize
  let start := min span.start size
  let stop := max (min span.stop size) start
  return ⟨file, start, if start = stop then min (stop + 1) size else stop⟩

/-- A label at a span that may be absent or in no known file. -/
def labelAt (sources : SourceMap) (span : Option Span) (text : String) : List Label :=
  match span.bind (resolve? sources) with
  | some place => [⟨place, text⟩]
  | none => []

/-- The labels of a fault beside the primary one, its notes and its help. -/
structure Details where
  primary : String
  others : List (Option Span × String) := []
  notes : List String := []
  help : List String := []

def faultDetails : Fault → Details
  | .invalidType expected found foundSpan reason =>
    { primary := s!"expected {expected}"
      others := [(foundSpan, s!"{found} because of this")]
      notes :=
        match reason with
        | some reason => [s!"the value must be {expected} {reason}"]
        | none => [] }
  | .incompatible left right leftSpan rightSpan path =>
    let what := if path.isEmpty then "they" else StepPath.text path
    { primary := s!"{what} are combined into one type here"
      others := [(leftSpan, s!"{left} here"), (rightSpan, s!"{right} here")] }
  | .layoutMismatch _ _ leftSpan rightSpan _ =>
    { primary := "combined here"
      others := [(leftSpan, "layout fixed here"), (rightSpan, "layout fixed here")]
      help := ["objects with a fixed layout must list their members in the same order"] }
  | .uninitialized name =>
    { primary := s!"`{name}` may not have a value yet"
      help := ["assign a value on every path before this point"] }
  | .invalidAssignment _ fault =>
    { primary := "assigned here"
      help :=
        match fault with
        | .immutable => ["declare the variable with `mut`"]
        | .moduleVariable => ["module variables cannot change after initialization"]
        | .procedure | .notAssignable => [] }
  | .selfReference _ =>
    { primary := "references itself"
      help := ["a module variable's value cannot depend on itself"] }
  | .unknownSymbol _ => { primary := "not found" }
  | .argumentCount _ expected found declared =>
    { primary := s!"{found} argument{pluralEnding found} provided here"
      others := [(some declared, s!"accepts {expected} argument{pluralEnding expected}")] }

/-- What a report says about an error. -/
def details : TypeError → Details
  | .single _ fault => faultDetails fault
  | .noViableCandidate _ _ _ rejections =>
    { primary := "no candidate accepts this call", notes := rejections.map TypeError.message }

def ofError (sources : SourceMap) (error : TypeError) : Report :=
  match resolve? sources error.span with
  | none => ⟨error.code, error.message, none, [], [], []⟩
  | some primary =>
    let d := details error
    ⟨error.code, error.message, some primary,
      ⟨primary, d.primary⟩ :: d.others.flatMap fun o => labelAt sources o.1 o.2, d.notes, d.help⟩

def header (r : Report) : String :=
  match r.primary with
  | some _ => s!"[{r.code}] Error: {r.message}"
  | none => s!"error[{r.code}]: {r.message}"

/-- The heading that shows a place of a file, given by line and column counted from `0`. -/
def heading (name : String) (place : Nat × Nat) : String :=
  s!"{name}:{place.1 + 1}:{place.2 + 1}"

/-- The place one character further: in the next line if that character ends one. -/
def advance (ends : Bool) (place : Nat × Nat) : Nat × Nat :=
  if ends then (place.1 + 1, 0) else (place.1, place.2 + 1)

/-- The place of a character, given after which characters a line ends. -/
def placeIn (ends : Nat → Bool) : Nat → Nat × Nat
  | 0 => (0, 0)
  | k + 1 => advance (ends k) (placeIn ends k)

end Report

/-- What draws reports: where it ends the lines of a text, and what it shows of a report. -/
structure Renderer where
  /-- Whether a line ends with a character of a text. -/
  endsLine : String → Nat → Bool
  /-- The headings of the sections. -/
  locations : Report → List String
  /-- The labels whose text is drawn. -/
  drawn : Report → List Label

end Monomorph
