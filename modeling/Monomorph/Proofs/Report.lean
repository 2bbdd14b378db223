import Mathlib.Data.List.Basic
import Mathlib.Data.String.Basic
import Monomorph.Report

/-!
# Where a report points

A span counts bytes and a renderer counts characters (`Renderer.CountsCharacters`). The report of an error passes
the bytes of its span on as they are, so what is shown depends on the text: `Report.ofError_points_iff` says
exactly when the heading shows the line and the column of the character that the span begins with and the
primary label is drawn. Every character before the span must be one byte long, the lines before it must end
with newlines only, and the span must end, in bytes, within the number of characters of the text.

Nothing else is assumed of a renderer; the one that draws reports in sections is such a renderer
(`Renderer.inSections_countsCharacters`). Its lines are compared with those of the text, where only a newline
ends a line, one character after another: the place that is shown is never on an earlier line, and is on the same
line only if no other line end was passed.
-/

namespace Monomorph

open Report

/-! ### Renderers -/

namespace Renderer

/-- The line and column, counted from `0`, at which a character of a text is shown. -/
def place (R : Renderer) (text : String) : Nat → Nat × Nat := placeIn (R.endsLine text)

/-- No character but a newline ends a line among the first `k`. -/
def OnlyNewlines (R : Renderer) (text : String) (k : Nat) : Prop :=
  ∀ j < k, R.endsLine text j → text.toList[j]? = some '\n'

/-- The renderer takes the ranges that it is given for offsets of characters. -/
structure CountsCharacters (R : Renderer) : Prop where
  /-- A newline ends a line, if any character follows it. -/
  newline : ∀ {text : String} {j : Nat}, text.toList[j]? = some '\n' → j + 1 < text.length → R.endsLine text j
  /-- The first heading shows where the primary place begins, if the first label is there. -/
  location : ∀ {r : Report} {label : Label} {others : List Label}, r.labels = label :: others →
    r.primary = some label.place → label.place.start < label.place.stop →
      label.place.stop ≤ label.place.file.text.length →
    (R.locations r).head? = some (heading label.place.file.name (R.place label.place.file.text label.place.start))
  /-- The text of a label is drawn if all characters of its range are there. -/
  drawn : ∀ {r : Report} {label : Label}, label.place.start < label.place.stop →
    (label ∈ R.drawn r ↔ label ∈ r.labels ∧ label.place.stop ≤ label.place.file.text.length)

end Renderer

namespace Report

/-! ### The place of a character -/

/-- The line and column, counted from `0`, of the character after these. -/
def placeAfter (before : List Char) : Nat × Nat :=
  (before.count '\n', (before.reverse.takeWhile (· ≠ '\n')).length)

theorem placeAfter_append (before : List Char) (c : Char) :
    placeAfter (before ++ [c]) = advance (c = '\n') (placeAfter before) := by
  by_cases newline : c = '\n' <;> simp [placeAfter, advance, newline]

/-- A later character is on a later line, or on the same line in a later column. -/
theorem placeIn_lt (ends : Nat → Bool) {j k : Nat} (lt : j < k) :
    (placeIn ends j).1 < (placeIn ends k).1 ∨
      (placeIn ends j).1 = (placeIn ends k).1 ∧ (placeIn ends j).2 < (placeIn ends k).2 := by
  induction k with
  | zero => omega
  | succ k ih =>
    have here : placeIn ends j = placeIn ends k ∨ (placeIn ends j).1 < (placeIn ends k).1 ∨
        (placeIn ends j).1 = (placeIn ends k).1 ∧ (placeIn ends j).2 < (placeIn ends k).2 := by
      rcases Nat.lt_succ_iff_lt_or_eq.mp lt with lt | rfl
      · exact .inr (ih lt)
      · exact .inl rfl
    rw [placeIn, advance]
    cases ends k <;> grind

theorem placeIn_injective (ends : Nat → Bool) : Function.Injective (placeIn ends) := by
  intro j k same
  rcases Nat.lt_trichotomy j k with lt | eq | lt
  · have := placeIn_lt ends lt
    grind
  · exact eq
  · have := placeIn_lt ends lt
    grind

theorem placeIn_line_mono (ends : Nat → Bool) {j k : Nat} (le : j ≤ k) : (placeIn ends j).1 ≤ (placeIn ends k).1 := by
  rcases Nat.eq_or_lt_of_le le with rfl | lt
  · exact le_rfl
  · have := placeIn_lt ends lt
    omega

end Report

/-! ### What is shown and the text -/

namespace Renderer

variable {R : Renderer} {text : String} {m k : Nat}

theorem OnlyNewlines.succ_iff :
    R.OnlyNewlines text (k + 1) ↔ R.OnlyNewlines text k ∧ (R.endsLine text k → text.toList[k]? = some '\n') := by
  simp only [OnlyNewlines, Nat.lt_succ_iff_lt_or_eq, or_imp, forall_and, forall_eq]

/-- The text is never on a later line than it is shown on, and on the same one only if every line before ended
with a newline. -/
theorem CountsCharacters.placeAfter_line_le (hR : R.CountsCharacters) (within : k < text.length) :
    (placeAfter (text.toList.take k)).1 ≤ (R.place text k).1 ∧
      ((placeAfter (text.toList.take k)).1 = (R.place text k).1 → R.OnlyNewlines text k) := by
  induction k with
  | zero => simp [placeAfter, OnlyNewlines]
  | succ k ih =>
    obtain ⟨le, same⟩ := ih (by omega)
    have inside : k < text.toList.length := by rw [String.length_toList]; omega
    have here : text.toList[k]? = some text.toList[k] := List.getElem?_eq_getElem inside
    have next : R.place text (k + 1) = advance (R.endsLine text k) (R.place text k) := rfl
    rw [next, List.take_add_one, here, Option.toList_some, placeAfter_append, OnlyNewlines.succ_iff]
    by_cases newline : text.toList[k] = '\n'
    · simp only [hR.newline (here.trans (congrArg some newline)) within, newline, advance]
      simp only [decide_true, if_true, Nat.add_le_add_iff_right, Nat.add_right_cancel_iff]
      exact ⟨le, fun eq => ⟨same eq, fun _ => by rw [here, newline]⟩⟩
    · cases ends : R.endsLine text k <;>
        simp only [newline, advance, decide_false, if_true, Bool.false_eq_true, if_false]
      · exact ⟨le, fun eq => ⟨same eq, nofun⟩⟩
      · exact ⟨by omega, fun eq => by omega⟩

theorem CountsCharacters.place_eq (hR : R.CountsCharacters) (within : k < text.length)
    (only : R.OnlyNewlines text k) : R.place text k = placeAfter (text.toList.take k) := by
  induction k with
  | zero => rfl
  | succ k ih =>
    obtain ⟨only, last⟩ := OnlyNewlines.succ_iff.mp only
    have inside : k < text.toList.length := by rw [String.length_toList]; omega
    have here : text.toList[k]? = some text.toList[k] := List.getElem?_eq_getElem inside
    have next : R.place text (k + 1) = advance (R.endsLine text k) (R.place text k) := rfl
    rw [next, List.take_add_one, here, Option.toList_some, placeAfter_append, ih (by omega) only]
    congr 1
    rw [here, Option.some.injEq] at last
    by_cases newline : text.toList[k] = '\n'
    · rw [hR.newline (here.trans (congrArg some newline)) within, newline]
      rfl
    · rw [decide_eq_false newline, ← Bool.not_eq_true]
      exact fun ends => newline (last ends)

/-- The place of character `m` of the text is shown for offset `k`, which is not before it, only if these are
the same and newlines alone ended lines before. -/
theorem CountsCharacters.place_eq_placeAfter_iff (hR : R.CountsCharacters) (le : m ≤ k) (within : k < text.length) :
    R.place text k = placeAfter (text.toList.take m) ↔ k = m ∧ R.OnlyNewlines text m := by
  constructor
  · intro same
    obtain ⟨lineLe, only⟩ := hR.placeAfter_line_le (show m < text.length by omega)
    have mono : (R.place text m).1 ≤ (R.place text k).1 := placeIn_line_mono _ le
    rw [same] at mono
    have only := only (Nat.le_antisymm lineLe mono)
    exact ⟨placeIn_injective _ (same.trans (hR.place_eq (by omega) only).symm), only⟩
  · rintro ⟨rfl, only⟩
    exact hR.place_eq within only

end Renderer

namespace Report

/-! ### Headings -/

theorem colon_notMem_toString (n : Nat) : ':' ∉ (toString n).toList := by
  intro mem
  have digit := Nat.isDigit_of_mem_toDigits (by decide) le_rfl (Nat.toList_repr ▸ mem)
  exact absurd digit (by decide)

theorem digits_injective : Function.Injective fun n : Nat => (toString n).toList := by
  intro m n same
  have values := congrArg (fun digits => Nat.ofDigitChars 10 digits 0) same
  have value (k : Nat) : Nat.ofDigitChars 10 (toString k).toList 0 = k :=
    (congrArg (Nat.ofDigitChars 10 · 0) Nat.toList_repr).trans Nat.ofDigitChars_ten_toDigits
  simpa only [value] using values

/-- Different places of a file have different headings. -/
theorem heading_injective (name : String) : Function.Injective (heading name) := by
  intro p q same
  have lists := congrArg String.toList same
  simp only [heading, String.toList_append, List.append_assoc, List.append_cancel_left_eq] at lists
  obtain ⟨lines, -, columns⟩ :=
    (List.append_cons_inj_of_notMem (colon_notMem_toString _) (colon_notMem_toString _)).mp lists
  exact Prod.ext (Nat.succ.inj (digits_injective lines)) (Nat.succ.inj (digits_injective columns))

/-! ### Reports -/

/-- The characters of a text are never more than its bytes, and as many only if each is one byte long. -/
theorem length_le_utf8ByteSize (s : String) :
    s.length ≤ s.utf8ByteSize ∧ (s.utf8ByteSize = s.length ↔ ∀ c ∈ s.toList, c.utf8Size = 1) := by
  rw [← String.length_toList]
  have bytes : s.utf8ByteSize = String.utf8Len s.toList := by
    rw [← String.utf8ByteSize_ofList, String.ofList_toList]
  rw [bytes]
  clear bytes
  induction s.toList with
  | nil => simp
  | cons c cs ih =>
    have size := c.utf8Size_pos
    obtain ⟨le, same⟩ := ih
    rw [List.forall_mem_cons, ← same, String.utf8Len, List.length_cons]
    omega

theorem resolve?_eq {sources : SourceMap} {span : Span} {file : SourceFile}
    (known : sources.get? span.file = some file) (nonempty : span.start < span.stop)
    (within : span.stop ≤ file.text.utf8ByteSize) :
    resolve? sources span = some ⟨file, span.start, span.stop⟩ := by
  have start : min span.start file.text.utf8ByteSize = span.start := by omega
  have stop : max (min span.stop file.text.utf8ByteSize) span.start = span.stop := by omega
  simp only [resolve?, known, start, stop, Nat.ne_of_lt nonempty, if_false, Option.bind_eq_bind, Option.bind_some,
    Option.pure_def]

variable {sources : SourceMap} {error : TypeError} {file : SourceFile}

/-- The label of an error at its span. -/
def primaryLabel (file : SourceFile) (error : TypeError) : Label :=
  ⟨⟨file, error.span.start, error.span.stop⟩, (details error).primary⟩

/-- The report of an error within the text of a known file. -/
theorem ofError_eq (known : sources.get? error.span.file = some file)
    (nonempty : error.span.start < error.span.stop) (within : error.span.stop ≤ file.text.utf8ByteSize) :
    ofError sources error =
      ⟨error.code, error.message, some ⟨file, error.span.start, error.span.stop⟩,
        primaryLabel file error :: (details error).others.flatMap fun o => labelAt sources o.1 o.2,
        (details error).notes, (details error).help⟩ := by
  simp only [ofError, resolve?_eq known nonempty within, primaryLabel]

/-- **Where a report points.** The error's span covers `inside`. A renderer that counts characters shows the line
and the column of the character after `before` and draws the primary label exactly if no character before the
span is more than one byte long, only newlines end the lines before it, and as many characters as the span's
end counts bytes are in the text. -/
theorem ofError_points_iff {R : Renderer} (counts : R.CountsCharacters) {before inside after : String}
    (known : sources.get? error.span.file = some file) (text : file.text = before ++ inside ++ after)
    (nonempty : inside ≠ "") (start : error.span.start = before.utf8ByteSize)
    (stop : error.span.stop = (before ++ inside).utf8ByteSize) :
    ((R.locations (ofError sources error)).head? = some (heading file.name (placeAfter before.toList)) ∧
        primaryLabel file error ∈ R.drawn (ofError sources error)) ↔
      (∀ c ∈ before.toList, c.utf8Size = 1) ∧ R.OnlyNewlines file.text before.length ∧
        error.span.stop ≤ file.text.length := by
  have covered : error.span.start < error.span.stop := by
    have : 0 < inside.utf8ByteSize :=
      Nat.pos_of_ne_zero fun zero => nonempty (String.utf8ByteSize_eq_zero_iff.mp zero)
    rw [start, stop, String.utf8ByteSize_append]
    omega
  have within : error.span.stop ≤ file.text.utf8ByteSize := by
    rw [stop, text, String.utf8ByteSize_append (s := before ++ inside)]
    exact Nat.le_add_right _ _
  have report := ofError_eq known covered within
  have drawn : primaryLabel file error ∈ R.drawn (ofError sources error) ↔
      error.span.stop ≤ file.text.length := by
    rw [counts.drawn covered, report]
    exact and_iff_right List.mem_cons_self
  obtain ⟨le, ascii⟩ := length_le_utf8ByteSize before
  rw [drawn, ← and_assoc, and_congr_left_iff]
  intro short
  have shown : (R.locations (ofError sources error)).head? =
      some (heading file.name (R.place file.text error.span.start)) := by
    have labels : (ofError sources error).labels = primaryLabel file error ::
        (details error).others.flatMap fun o => labelAt sources o.1 o.2 := by rw [report]
    have primary : (ofError sources error).primary = some (primaryLabel file error).place := by rw [report]; rfl
    have first := counts.location labels primary covered short
    exact first
  have begins : before.toList = file.text.toList.take before.length := by
    simp [text, ← String.length_toList]
  have behind : before.length ≤ error.span.start := start ▸ le
  rw [shown, Option.some.injEq, (heading_injective _).eq_iff, begins,
    counts.place_eq_placeAfter_iff behind (by omega), ← begins, start, ascii]

def oneFile (text : String) : SourceMap := (SourceMap.empty.add "main.gera" text).1

/-- The error of a name that no symbol has. -/
def notFound (start stop : Nat) : TypeError := .single ⟨0, start, stop⟩ (.unknownSymbol ⟨["x"]⟩)

/-- A renderer that shows the place of the first label only. -/
def plain : Renderer where
  endsLine text j := text.toList[j]? = some '\n'
  locations r := (r.labels.head?.map fun label =>
    heading label.place.file.name (placeIn (label.place.file.text.toList[·]? = some '\n') label.place.start)).toList
  drawn r := r.labels.filter fun label => label.place.stop ≤ label.place.file.text.length

theorem plain_countsCharacters : plain.CountsCharacters where
  newline newline _ := decide_eq_true newline
  location {r label others} labels _ _ _ := by
    simp only [plain, labels, List.head?_cons, Option.map_some, Option.toList_some]
    rfl
  drawn _ := by simp [plain]

/-- Lines may end with a return and a newline, and later characters may be longer. -/
theorem ofError_points_ascii :
    let file : SourceFile := ⟨"main.gera", "a\r\nb = x -- é", .ofText "a\r\nb = x -- é"⟩
    (plain.CountsCharacters ∧ (oneFile file.text).get? (notFound 7 8).span.file = some file ∧
      file.text = "a\r\nb = " ++ "x" ++ " -- é" ∧ "x" ≠ "" ∧
      (notFound 7 8).span.start = "a\r\nb = ".utf8ByteSize ∧
      (notFound 7 8).span.stop = ("a\r\nb = " ++ "x").utf8ByteSize) ∧
      (plain.locations (ofError (oneFile file.text) (notFound 7 8))).head? = some "main.gera:2:5" ∧
      primaryLabel file (notFound 7 8) ∈ plain.drawn (ofError (oneFile file.text) (notFound 7 8)) := by
  intro file
  have known : (oneFile file.text).get? (notFound 7 8).span.file = some file := rfl
  have text : file.text = "a\r\nb = " ++ "x" ++ " -- é" := by decide +kernel
  have start : (notFound 7 8).span.start = "a\r\nb = ".utf8ByteSize := by decide +kernel
  have stop : (notFound 7 8).span.stop = ("a\r\nb = " ++ "x").utf8ByteSize := by decide +kernel
  have only : plain.OnlyNewlines file.text "a\r\nb = ".length := fun j _ ends => of_decide_eq_true ends
  have shown : heading file.name (placeAfter "a\r\nb = ".toList) = "main.gera:2:5" := by decide +kernel
  have ascii : ∀ c ∈ "a\r\nb = ".toList, c.utf8Size = 1 :=
    (length_le_utf8ByteSize _).2.mp (by decide +kernel)
  obtain ⟨first, drawn⟩ := (ofError_points_iff plain_countsCharacters known text (by decide) start stop).mpr
    ⟨ascii, only, by decide +kernel⟩
  exact ⟨⟨plain_countsCharacters, known, text, by decide, start, stop⟩, first.trans (congrArg some shown), drawn⟩

/-- After a character of two bytes the heading shows the next column. -/
theorem ofError_points_late :
    plain.CountsCharacters ∧ (notFound 5 6).span.start = "é = ".utf8ByteSize ∧
      (notFound 5 6).span.stop = ("é = " ++ "x").utf8ByteSize ∧
      heading "main.gera" (placeAfter "é = ".toList) = "main.gera:1:5" ∧
      plain.locations (ofError (oneFile "é = x\n") (notFound 5 6)) = ["main.gera:1:6"] :=
  ⟨plain_countsCharacters, by decide +kernel⟩

/-! ### Reports in sections -/

theorem lineEnds_newline {text : List Char} {j : Nat} (newline : text[j]? = some '\n') (more : j + 1 < text.length) :
    (lineEnds text).getD j false = true := by
  induction text generalizing j with
  | nil => cases newline
  | cons c text ih =>
    cases text with
    | nil => simp at more
    | cons d text =>
      cases j with
      | zero =>
        obtain rfl := Option.some.inj newline
        rfl
      | succ j => exact ih newline (Nat.lt_of_succ_lt_succ more)

theorem lines?_eq_some {r : FileRange} (nonempty : r.start < r.stop) (within : r.stop ≤ r.file.text.length) :
    ∃ first last, FileRange.lines? r = some (first, last) := by
  simp [FileRange.lines?, FileRange.position?, nonempty, show r.start ≤ r.file.text.length by omega,
    show r.stop ≤ r.file.text.length + 1 by omega]

theorem sectionStarts_placed {r : Report} {label : Label} {others : List Label} (labels : r.labels = label :: others)
    (nonempty : label.place.start < label.place.stop) (within : label.place.stop ≤ label.place.file.text.length) :
    (sectionStarts none r.placed).head? = some label := by
  obtain ⟨first, last, lines⟩ := lines?_eq_some nonempty within
  obtain ⟨rest, begins⟩ : ∃ rest, r.placed = ⟨label, last⟩ :: rest := by
    simp [placed, labels, lines]
  simp [begins, sectionStarts]

end Report

/-- The renderer that draws reports in sections counts characters. -/
theorem Renderer.inSections_countsCharacters : inSections.CountsCharacters where
  newline {text j} newline more := by
    have ends := lineEnds_newline newline (String.length_toList ▸ more)
    change (lineEnds text.toList).toArray.getD j false = true
    rwa [Array.getD_eq_getD_getElem?, List.getElem?_toArray, ← List.getD_eq_getElem?_getD]
  location {r label others} labels primary nonempty within := by
    have position : FileRange.position? label.place.file label.place.start =
        some (inSections.place label.place.file.text label.place.start) := if_pos (by omega)
    change (List.map _ _).head? = _
    rw [List.head?_map, sectionStarts_placed labels nonempty within, Option.map_some, sectionLocation]
    simp only [primary, if_true, position]
  drawn {r label} _ := by
    change label ∈ List.filter _ _ ↔ _
    simp

end Monomorph
