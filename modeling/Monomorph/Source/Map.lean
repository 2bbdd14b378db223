import Monomorph.Source.LineIndex
import Monomorph.Source.Span

/-!
# Source map

The source files of a run, numbered in order of registration and found again by number or by name.
-/

namespace Monomorph

/-- One source file with the index of its lines. -/
structure SourceFile where
  name : String
  text : String
  lines : LineIndex
  deriving Inhabited, Repr

/-- All source files, each at the position that is its number. -/
structure SourceMap where
  files : List SourceFile
  deriving Inhabited, Repr

/-- The characters after the first `n` bytes, if those bytes end on a character boundary. -/
def dropBytes? : Nat → List Char → Option (List Char)
  | 0, cs => some cs
  | _ + 1, [] => none
  | n + 1, c :: cs => if c.utf8Size ≤ n + 1 then dropBytes? (n + 1 - c.utf8Size) cs else none
termination_by _ cs => cs.length

/-- The characters of the first `n` bytes, if those bytes end on a character boundary. -/
def takeBytes? : Nat → List Char → Option (List Char)
  | 0, _ => some []
  | _ + 1, [] => none
  | n + 1, c :: cs =>
    if c.utf8Size ≤ n + 1 then (takeBytes? (n + 1 - c.utf8Size) cs).map (c :: ·) else none
termination_by _ cs => cs.length

namespace SourceMap

def empty : SourceMap := ⟨[]⟩

/-- Number of the file with this name. -/
def lookup (m : SourceMap) (name : String) : Option FileId :=
  m.files.findIdx? (·.name == name)

def get? (m : SourceMap) (id : FileId) : Option SourceFile := m.files[id]?

/-- Register a file. A name already present keeps its number and gets the new text. -/
def add (m : SourceMap) (name text : String) : SourceMap × FileId :=
  let file : SourceFile := ⟨name, text, .ofText text⟩
  match m.lookup name with
  | some id => (⟨m.files.set id file⟩, id)
  | none => (⟨m.files ++ [file]⟩, m.files.length)

/-- The text a span covers, if the file is known, the span lies within it and cuts no character. -/
def snippet? (m : SourceMap) (span : Span) : Option String := do
  let file ← m.get? span.file
  guard (span.start ≤ span.stop)
  let rest ← dropBytes? span.start file.text.toList
  let covered ← takeBytes? (span.stop - span.start) rest
  return String.ofList covered

/-- `name:line:column` of the start of a span. -/
def location (m : SourceMap) (span : Span) : String :=
  match m.get? span.file with
  | some file =>
    let (line, col) := file.lines.lineCol span.start
    s!"{file.name}:{line}:{col}"
  | none => s!"<unknown>:{span.start}"

end SourceMap
end Monomorph
