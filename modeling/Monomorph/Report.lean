import Monomorph.Report.Basic

/-!
# Reports in sections

A renderer. It reads ranges as *character* offsets, leaves out the labels that lie beyond the text and groups
the rest into sections of neighbouring labels. The text of a label is drawn below its last character, so a
label that ends beyond the text has its place in a section and no more.
-/

namespace Monomorph
namespace Report

/-! ### Lines -/

def isLineEnd (c : Char) : Bool :=
  c = '\n' || c = '\r' || c = '\x0b' || c = '\x0c' || c = '\u0085' || c = '\u2028' || c = '\u2029'

/-- Whether a line ends with each character of a text. A return and a newline after it are one end, and
an end of the last line opens no further line. -/
def lineEnds : List Char → List Bool
  | [] => []
  | [_] => [false]
  | c :: d :: rest => (isLineEnd c && !(c == '\r' && d == '\n')) :: lineEnds (d :: rest)

/-- Whether a line of the text ends with its character of that number. -/
def endsLine (text : String) : Nat → Bool :=
  let ends := (lineEnds text.toList).toArray
  fun j => ends.getD j false

namespace FileRange

/-- The line and column of an offset, if it is not beyond the text. -/
def position? (file : SourceFile) (offset : Nat) : Option (Nat × Nat) :=
  if offset ≤ file.text.length then some (placeIn (endsLine file.text) offset) else none

/-- The lines of the first and the last character of a range, if it is not beyond the text. -/
def lines? (r : FileRange) : Option (Nat × Nat) := do
  let (first, _) ← position? r.file r.start
  if r.start < r.stop then
    let (last, _) ← position? r.file (r.stop - 1)
    return (first, last)
  else return (first, first)

end FileRange

/-! ### Sections -/

/-- A label that has a place in a section, with the line of its last character. -/
structure PlacedLabel where
  label : Label
  lastLine : Nat

def placed (r : Report) : List PlacedLabel :=
  r.labels.filterMap fun label => (FileRange.lines? label.place).map fun ls => ⟨label, ls.2⟩

/-- The labels whose text is drawn: those that end within the text of their file. -/
def drawn (r : Report) : List Label :=
  r.labels.filter fun label => label.place.stop ≤ label.place.file.text.length

/-- The notes or the help as drawn, which is below the last section. -/
def belowSections (r : Report) (texts : List String) : List String :=
  if r.placed.isEmpty then [] else texts

/-- The first label of every section. A label continues the section of the label before it if it is in
the same file and ends on no earlier line. -/
def sectionStarts (previous : Option PlacedLabel) : List PlacedLabel → List Label
  | [] => []
  | l :: rest =>
    let continues := previous.any fun p =>
      p.label.place.file.name == l.label.place.file.name && p.lastLine ≤ l.lastLine
    if continues then sectionStarts (some l) rest
    else l.label :: sectionStarts (some l) rest

/-- The heading of a section: its file, and the position of the primary place if it is in that file, else
of the section's first label. -/
def sectionLocation (r : Report) (first : Label) : String :=
  let file := first.place.file
  let offset :=
    match r.primary with
    | some p => if p.file.name = file.name then p.start else first.place.start
    | none => first.place.start
  match FileRange.position? file offset with
  | some place => heading file.name place
  | none => s!"{file.name}:?:?"

def locations (r : Report) : List String :=
  (sectionStarts none r.placed).map r.sectionLocation

end Report

/-- The renderer that draws reports in sections. -/
def Renderer.inSections : Renderer := ⟨Report.endsLine, Report.locations, Report.drawn⟩

end Monomorph
