/-!
# Line index

The byte offsets at which the lines of a text begin, as words of 32 bits. `LineIndex.lineCol` finds the line
and column of an offset: the line is the last one that begins at or before it, found by bisection. A newline
belongs to the line it ends.
-/

namespace Monomorph

/-! ### Bisection -/

section partitionPoint

variable {α : Type} (p : α → Bool) (xs : Array α)

/-- Where the elements that satisfy `p` end, in an array that begins with all of them. -/
def partitionPoint : Nat :=
  go 0 xs.size (Nat.le_refl _)
where
  /-- The elements before `low` satisfy `p`, those from `high` on do not. -/
  go (low high : Nat) (bound : high ≤ xs.size) : Nat :=
    if inside : low < high then
      let middle := low + (high - low) / 2
      if p xs[middle] then go (middle + 1) high bound else go low middle (by omega)
    else
      low
  termination_by high - low

theorem partitionPoint.go_le {low high : Nat} {bound : high ≤ xs.size} (le : low ≤ high) :
    partitionPoint.go p xs low high bound ≤ high := by
  fun_induction partitionPoint.go p xs low high bound <;> grind

theorem partitionPoint_le : partitionPoint p xs ≤ xs.size :=
  partitionPoint.go_le p xs (Nat.zero_le _)

end partitionPoint

/-! ### Lines -/

/-- Where the lines of a text begin, in bytes and increasing; the first line begins at `0`. -/
structure LineIndex where
  starts : Array UInt32
  nonempty : 0 < starts.size
  deriving DecidableEq, Repr

namespace LineIndex

def newline : UInt8 := '\n'.toUInt8

/-- Offsets just after each newline of `bytes`, whose first byte stands at `offset`. -/
def startsAfter (offset : Nat) : List UInt8 → List Nat
  | [] => []
  | byte :: rest =>
    let next := offset + 1
    if byte = newline then next :: startsAfter next rest else startsAfter next rest

/-- Index the lines of a text given as bytes. -/
def ofBytes (bytes : List UInt8) : LineIndex :=
  ⟨((0 :: startsAfter 0 bytes).map Nat.toUInt32).toArray, by simp⟩

def ofText (text : String) : LineIndex :=
  ofBytes text.toUTF8.data.toList

instance : Inhabited LineIndex := ⟨ofText ""⟩

/-- Number of lines; a text always has one more than it has newlines. -/
def count (index : LineIndex) : Nat := index.starts.size

/-- The line of a byte offset, by its position: the last one that begins at or before it. -/
def lineAt (index : LineIndex) (offset : UInt32) : Fin index.starts.size :=
  ⟨partitionPoint (· ≤ offset) index.starts - 1, by
    have := partitionPoint_le (· ≤ offset) index.starts
    have := index.nonempty
    omega⟩

/-- The 1-based line and 1-based byte column of a byte offset, counted in words that wrap around. -/
def lineCol (index : LineIndex) (offset : Nat) : Nat × Nat :=
  let line := index.lineAt offset.toUInt32
  let column := offset.toUInt32 - index.starts[line] + 1
  ((line.val.toUInt32 + 1).toNat, column.toNat)

end LineIndex
end Monomorph
