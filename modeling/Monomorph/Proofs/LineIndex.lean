import Mathlib
import Monomorph.Source.LineIndex

/-!
# Lines and columns are exact

The line of an offset is told by the newlines before it, the column by the bytes after the last of them
(`LineIndex.placeAfter`). `LineIndex.lineCol_ofText` says that the index of a text finds both for every offset
of the text, and that its words do not wrap around on the way: one more than the length of the text is still a
word.

The starts of the lines are cut at the offset into those that are begun there and those to come
(`LineIndex.starts_ofBytes`). Bisection counts the first of the two (`partitionPoint_append`), and the last one
begun is where the line of the offset begins (`LineIndex.getLast_begun`).
-/

namespace Monomorph

/-! ### Bisection -/

section partitionPoint

variable {α : Type} {p : α → Bool}

/-- Bisection ends at `n` if exactly the elements before `n` satisfy `p` and `n` is in its range. -/
theorem partitionPoint.go_eq {xs : Array α} {n low high : Nat} {bound : high ≤ xs.size}
    (split : ∀ i (h : i < xs.size), p xs[i] = true ↔ i < n) (le : low ≤ n) (ge : n ≤ high) :
    partitionPoint.go p xs low high bound = n := by
  fun_induction partitionPoint.go p xs low high bound with
  | case1 low high bound inside middle holds ih =>
    exact ih ((split middle (by omega)).mp holds) ge
  | case2 low high bound inside middle fails ih =>
    have : ¬ middle < n := fun lt => fails ((split middle (by omega)).mpr lt)
    exact ih le (by omega)
  | case3 low high bound outside => omega

theorem partitionPoint_append {xs ys : List α} (front : ∀ x ∈ xs, p x = true)
    (back : ∀ y ∈ ys, p y = false) :
    partitionPoint p (xs ++ ys).toArray = xs.length := by
  refine partitionPoint.go_eq (fun i inside => ?_) (Nat.zero_le _) (by simp)
  rw [List.getElem_toArray, List.getElem_append]
  split
  case isTrue begun => simp [front _ (List.getElem_mem begun), begun]
  case isFalse coming => simp [back _ (List.getElem_mem _), coming]

end partitionPoint

namespace LineIndex

/-! ### The place of a byte -/

/-- Number of bytes after the last newline. -/
def sinceNewline (before : List UInt8) : Nat :=
  (before.reverse.takeWhile (· ≠ newline)).length

/-- The line and column, counted from `1`, of the byte after these. -/
def placeAfter (before : List UInt8) : Nat × Nat :=
  (1 + before.count newline, 1 + sinceNewline before)

theorem sinceNewline_append (before : List UInt8) (byte : UInt8) :
    sinceNewline (before ++ [byte]) = if byte = newline then 0 else sinceNewline before + 1 := by
  by_cases ends : byte = newline <;> simp [sinceNewline, ends]

/-! ### Where lines begin -/

theorem startsAfter_append (offset : Nat) (front back : List UInt8) :
    startsAfter offset (front ++ back) =
      startsAfter offset front ++ startsAfter (offset + front.length) back := by
  induction front generalizing offset with
  | nil => rfl
  | cons byte front ih =>
    have next : offset + 1 + front.length = offset + (byte :: front).length := by
      rw [List.length_cons]
      omega
    by_cases ends : byte = newline <;>
      simp only [List.cons_append, startsAfter, ends, ih, next, if_true, if_false]

theorem length_startsAfter (offset : Nat) (bytes : List UInt8) :
    (startsAfter offset bytes).length = bytes.count newline := by
  induction bytes generalizing offset with
  | nil => rfl
  | cons byte bytes ih => by_cases ends : byte = newline <;> simp [startsAfter, ends, ih]

theorem mem_startsAfter {offset start : Nat} {bytes : List UInt8} (mem : start ∈ startsAfter offset bytes) :
    offset < start ∧ start ≤ offset + bytes.length := by
  induction bytes generalizing offset with
  | nil => cases mem
  | cons byte bytes ih =>
    have later (mem : start ∈ startsAfter (offset + 1) bytes) := ih mem
    by_cases ends : byte = newline <;> grind [startsAfter]

/-- Where the lines begin that are begun after these bytes. -/
def begun (before : List UInt8) : List Nat :=
  0 :: startsAfter 0 before

theorem length_begun (before : List UInt8) : (begun before).length = before.count newline + 1 := by
  rw [begun, List.length_cons, length_startsAfter]

theorem le_of_mem_begun {start : Nat} {before : List UInt8} (mem : start ∈ begun before) :
    start ≤ before.length := by
  rcases List.mem_cons.mp mem with rfl | mem
  · exact Nat.zero_le _
  · simpa using (mem_startsAfter mem).2

theorem begun_append (before : List UInt8) (byte : UInt8) :
    begun (before ++ [byte]) = begun before ++ if byte = newline then [before.length + 1] else [] := by
  by_cases ends : byte = newline <;> simp [begun, startsAfter_append, startsAfter, ends]

/-- The last line begins where its bytes are counted from. -/
theorem getLast_begun (before : List UInt8) :
    ∃ start, (begun before).getLast? = some start ∧ start + sinceNewline before = before.length := by
  induction before using List.reverseRecOn with
  | nil => exact ⟨0, rfl, rfl⟩
  | append_singleton before byte ih =>
    rw [begun_append, sinceNewline_append, List.length_append, List.length_singleton]
    by_cases ends : byte = newline
    · exact ⟨before.length + 1, by simp [ends], by simp [ends]⟩
    · obtain ⟨start, last, ih⟩ := ih
      exact ⟨start, by simpa [ends] using last, by simp only [ends, if_false]; omega⟩

/-! ### Words -/

theorem toNat_toUInt32 {n : Nat} (word : n < 2 ^ 32) : n.toUInt32.toNat = n := by
  rw [Nat.toUInt32_eq, UInt32.toNat_ofNat', Nat.mod_eq_of_lt word]

theorem toUInt32_le_iff {m n : Nat} (hm : m < 2 ^ 32) (hn : n < 2 ^ 32) : m.toUInt32 ≤ n.toUInt32 ↔ m ≤ n := by
  rw [UInt32.le_iff_toNat_le, toNat_toUInt32 hm, toNat_toUInt32 hn]

/-- One more than a word is a word unless it is the greatest. -/
theorem toNat_add_one {w : UInt32} {n : Nat} (same : w.toNat = n) (word : n + 1 < 2 ^ 32) :
    (w + 1).toNat = 1 + n := by
  rw [UInt32.toNat_add, UInt32.toNat_one, same, Nat.mod_eq_of_lt word, Nat.add_comm]

theorem toNat_sub {offset n : Nat} {start : UInt32} (word : offset < 2 ^ 32) (sum : start.toNat + n = offset) :
    (offset.toUInt32 - start).toNat = n := by
  have le : start ≤ offset.toUInt32 := by
    rw [UInt32.le_iff_toNat_le, toNat_toUInt32 word]
    omega
  rw [UInt32.toNat_sub_of_le _ _ le, toNat_toUInt32 word]
  omega

/-! ### The index of a text -/

section ofBytes

variable {bytes : List UInt8} {offset : Nat}

/-- The lines of a text are those begun at an offset and those to come. -/
theorem starts_ofBytes (within : offset ≤ bytes.length) :
    (ofBytes bytes).starts = ((begun (bytes.take offset)).map Nat.toUInt32 ++
      (startsAfter offset (bytes.drop offset)).map Nat.toUInt32).toArray := by
  have cut := startsAfter_append 0 (bytes.take offset) (bytes.drop offset)
  rw [List.take_append_drop, List.length_take_of_le within, Nat.zero_add] at cut
  simp only [ofBytes, cut, begun, List.map_append, List.map_cons, List.cons_append]

theorem lineAt_ofBytes (size : bytes.length < 2 ^ 32) (within : offset ≤ bytes.length) :
    ((ofBytes bytes).lineAt offset.toUInt32).val = (bytes.take offset).count newline := by
  have front : ∀ start ∈ (begun (bytes.take offset)).map Nat.toUInt32,
      decide (start ≤ offset.toUInt32) = true := by
    rw [List.forall_mem_map]
    intro start mem
    have le := le_of_mem_begun mem
    rw [List.length_take_of_le within] at le
    exact decide_eq_true ((toUInt32_le_iff (by omega) (by omega)).mpr le)
  have back : ∀ start ∈ (startsAfter offset (bytes.drop offset)).map Nat.toUInt32,
      decide (start ≤ offset.toUInt32) = false := by
    rw [List.forall_mem_map]
    intro start mem
    obtain ⟨gt, le⟩ := mem_startsAfter mem
    rw [List.length_drop] at le
    exact decide_eq_false fun h => absurd ((toUInt32_le_iff (by omega) (by omega)).mp h) (by omega)
  simp only [lineAt, starts_ofBytes within]
  rw [partitionPoint_append front back, List.length_map, length_begun, Nat.add_sub_cancel]

/-- The line of an offset begins where its bytes are counted from. -/
theorem start_ofBytes (size : bytes.length < 2 ^ 32) (within : offset ≤ bytes.length) :
    ∃ start, (ofBytes bytes).starts[(bytes.take offset).count newline]? = some start ∧
      start.toNat + sinceNewline (bytes.take offset) = offset := by
  obtain ⟨start, last, since⟩ := getLast_begun (bytes.take offset)
  rw [List.length_take_of_le within] at since
  refine ⟨start.toUInt32, ?_, (toNat_toUInt32 (n := start) (by omega)).symm ▸ since⟩
  rw [List.getLast?_eq_getElem?, length_begun, Nat.add_sub_cancel] at last
  rw [starts_ofBytes within, List.getElem?_toArray, List.getElem?_append_left (by simp [length_begun]),
    List.getElem?_map, last, Option.map_some]

/-- The line and the column found. Neither wraps around, as both are at most one more than the offset. -/
theorem lineCol_ofBytes (size : bytes.length < 2 ^ 32 - 1) (within : offset ≤ bytes.length) :
    (ofBytes bytes).lineCol offset = placeAfter (bytes.take offset) := by
  obtain ⟨start, found, since⟩ := start_ofBytes (by omega) within
  have line := lineAt_ofBytes (by omega) within
  have lines : (bytes.take offset).count newline ≤ offset := List.count_le_length.trans (List.length_take_le _ _)
  have here : (ofBytes bytes).starts[(ofBytes bytes).lineAt offset.toUInt32] = start := by
    rw [← line] at found
    exact (Array.getElem?_eq_some_iff.mp found).2
  have number : (((bytes.take offset).count newline).toUInt32 + 1).toNat = 1 + (bytes.take offset).count newline :=
    toNat_add_one (toNat_toUInt32 (by omega)) (by omega)
  have column : (offset.toUInt32 - start + 1).toNat = 1 + sinceNewline (bytes.take offset) :=
    toNat_add_one (toNat_sub (by omega) since) (by omega)
  simp only [lineCol, here, line, number, column, placeAfter]

end ofBytes

/-! ### Lookup in a text -/

/-- Later offsets have later places, as the place of an offset is the start of its line and the bytes since. -/
theorem placeAfter_lt {bytes : List UInt8} {x y : Nat} (size : bytes.length < 2 ^ 32) (lt : x < y)
    (within : y ≤ bytes.length) :
    toLex (placeAfter (bytes.take x)) < toLex (placeAfter (bytes.take y)) := by
  obtain ⟨start, found, since⟩ := start_ofBytes size (lt.le.trans within)
  obtain ⟨start', found', since'⟩ := start_ofBytes size within
  have lines : (bytes.take x).count newline ≤ (bytes.take y).count newline :=
    (List.take_sublist_take_left lt.le).count_le newline
  rw [Prod.Lex.toLex_lt_toLex]
  rcases lines.lt_or_eq with before | same
  · exact .inl (Nat.add_lt_add_left before 1)
  · rw [same, found'] at found
    cases found
    exact .inr ⟨congrArg (1 + ·) same, by simp only [placeAfter]; omega⟩

/-- The line and the column of every offset of a text, its end included, are those of its newlines. The start of
its line is subtracted from the offset without underflow and leaves the column, and later offsets have later
lines and columns. -/
theorem lineCol_ofText (text : String) (size : text.utf8ByteSize < 2 ^ 32 - 1) :
    let index := ofText text
    let bytes := text.toUTF8.data.toList
    (∀ offset ≤ text.utf8ByteSize,
      index.lineCol offset = placeAfter (bytes.take offset) ∧
      ∃ start, index.starts[(index.lineCol offset).1 - 1]? = some start ∧ start.toNat ≤ offset ∧
        start.toNat + (index.lineCol offset).2 - 1 = offset) ∧
    StrictMonoOn (fun offset => toLex (index.lineCol offset)) (Set.Iic text.utf8ByteSize) := by
  intro index bytes
  have length : bytes.length = text.utf8ByteSize := by
    rw [Array.length_toList, ByteArray.size_data, String.toUTF8, String.size_toByteArray]
  have inside {offset : Nat} (within : offset ≤ text.utf8ByteSize) : offset ≤ bytes.length := length ▸ within
  have place {offset : Nat} (within : offset ≤ text.utf8ByteSize) :
      index.lineCol offset = placeAfter (bytes.take offset) :=
    lineCol_ofBytes (length ▸ size) (inside within)
  refine ⟨fun offset within => ⟨place within, ?_⟩, fun x hx y hy lt => ?_⟩
  · obtain ⟨start, found, since⟩ := start_ofBytes (by omega) (inside within)
    rw [place within, placeAfter, Nat.add_sub_cancel_left]
    exact ⟨start, found, by omega, by omega⟩
  · simp only [place hx, place hy]
    exact placeAfter_lt (by omega) lt (inside hy)

/-- A character of two bytes, an empty line and the end of the text. -/
theorem lineCol_ofText_emptyLine :
    let index := ofText "é\n\nb\n"
    "é\n\nb\n".utf8ByteSize < 2 ^ 32 - 1 ∧
      index.lineCol 1 = (1, 2) ∧ index.lineCol 2 = (1, 3) ∧ index.lineCol 3 = (2, 1) ∧
      index.lineCol 6 = (4, 1) ∧ toLex (index.lineCol 3) < toLex (index.lineCol 6) := by
  intro index
  have size : "é\n\nb\n".utf8ByteSize < 2 ^ 32 - 1 := by decide
  obtain ⟨exact, increasing⟩ := lineCol_ofText "é\n\nb\n" size
  refine ⟨size, (exact 1 (by decide)).1, (exact 2 (by decide)).1, (exact 3 (by decide)).1,
    (exact 6 (by decide)).1, ?_⟩
  exact increasing (Set.mem_Iic.mpr (by decide)) (Set.mem_Iic.mpr (by decide)) (by decide)

end LineIndex
end Monomorph
