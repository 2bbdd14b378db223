import Mathlib.Data.List.Induction
import Monomorph.Proofs.Constant.Equality

/-! # What the table of constants holds

The table after a history of adds holds, at the number an add gave, the first value of the history that equals the
one added, and goes on holding it (`get?_tableAfter`). As equality looks past the signs of zeros, that value may be
another one than was added, and as it tells what is no number from itself, such a value gets a new entry every time
(`numberOf_eq_iff`). Entries of values with mutable storage are their own (`numberOf_ne`).

Main statement: `ConstantTable.add_stores`. -/

namespace Monomorph.ConstantTable

/-- The table after these constants were added, in order, to the empty one. -/
def tableAfter (values : List Constant) : ConstantTable := values.foldl (fun t c => (t.add c).2) empty

/-- The number that a constant is given when it is added after others. -/
def numberOf (before : List Constant) (c : Constant) : Nat := ((tableAfter before).add c).1

/-- What stands for a constant that is added after others: the first of them that equals it, unless there is none
or it has mutable storage. -/
def standIn (before : List Constant) (c : Constant) : Constant :=
  if c.isImmutable then (before.find? (· == c)).getD c else c

variable {before : List Constant} {c d : Constant} {i j : Nat}

/-! ### One add -/

/-- The entry that a constant added to the table shares, if there is one. -/
def shared? (t : ConstantTable) (c : Constant) : Option Nat :=
  if c.isImmutable then t.values.findIdx? (· == c) else none

/-- An add either finds an entry to share, and leaves the table, or makes a new one at its end. -/
theorem add_cases (t : ConstantTable) (c : Constant) :
    (∃ i, t.shared? c = some i ∧ t.add c = (i, t)) ∨
      t.shared? c = none ∧ t.add c = (t.size, ⟨t.values.push c⟩) := by
  unfold add shared?
  cases h : if c.isImmutable then t.values.findIdx? (· == c) else none with
  | some i => exact .inl ⟨i, rfl, rfl⟩
  | none => exact .inr ⟨rfl, rfl⟩

/-- The entry shared is immutable and the first that equals the constant. -/
theorem shared?_eq_some_iff {t : ConstantTable} : t.shared? c = some i ↔
    c.isImmutable = true ∧ (∃ d, t.get? i = some d ∧ (d == c) = true) ∧
      ∀ j < i, ∀ d, t.get? j = some d → (d == c) = false := by
  unfold shared? get?
  split
  · rw [Array.findIdx?_eq_some_iff_getElem]
    grind
  · simp_all

theorem shared?_eq_none_iff {t : ConstantTable} : t.shared? c = none ↔
    (c.isImmutable = true → ∀ j d, t.get? j = some d → (d == c) = false) := by
  unfold shared? get?
  split
  · simp only [Array.findIdx?_eq_none_iff, Array.mem_iff_getElem?]
    grind
  · simp_all

theorem get?_push (t : ConstantTable) (c : Constant) :
    (⟨t.values.push c⟩ : ConstantTable).get? i = if i = t.size then some c else t.get? i := by
  unfold get? size
  rw [Array.getElem?_push]

theorem lt_size_of_get? {t : ConstantTable} (h : t.get? i = some c) : i < t.size :=
  (Array.getElem?_eq_some_iff.mp h).1

theorem get?_add {t : ConstantTable} (h : t.get? i = some d) : (t.add c).2.get? i = some d := by
  obtain ⟨_, -, h'⟩ | ⟨-, h'⟩ := t.add_cases c <;> rw [h']
  · exact h
  · rw [get?_push, if_neg (Nat.ne_of_lt (lt_size_of_get? h)), h]

/-! ### A history of adds -/

theorem tableAfter_snoc (before : List Constant) (c : Constant) :
    tableAfter (before ++ [c]) = ((tableAfter before).add c).2 := by
  simp [tableAfter]

theorem get?_tableAfter_append (h : (tableAfter before).get? i = some d) (after : List Constant) :
    (tableAfter (before ++ after)).get? i = some d := by
  induction after using List.reverseRecOn with
  | nil => rwa [List.append_nil]
  | append_singleton after c ih =>
    rw [← List.append_assoc, tableAfter_snoc]
    exact get?_add ih

/-- An immutable value equals no entry before its own. -/
theorem first_tableAfter (before : List Constant) : ∀ i j c d, i < j → (tableAfter before).get? i = some c →
    (tableAfter before).get? j = some d → d.isImmutable = true → (c == d) = false := by
  induction before using List.reverseRecOn with
  | nil => intro i j c d _ h; cases h
  | append_singleton before e ih =>
    intro i j c d hij hi hj hd
    rw [tableAfter_snoc] at hi hj
    obtain ⟨_, -, h⟩ | ⟨new, h⟩ := (tableAfter before).add_cases e <;> rw [h] at hi hj
    · exact ih i j c d hij hi hj hd
    · rw [get?_push] at hi hj
      split at hj
      · cases hj
        rw [if_neg (by omega)] at hi
        exact shared?_eq_none_iff.mp new hd i c hi
      · have hlt := lt_size_of_get? hj
        rw [if_neg (by omega)] at hi
        exact ih i j c d hij hi hj hd

/-- The first value of a history that equals an immutable one is in the table, before all others that do. -/
theorem find?_tableAfter (before : List Constant) :
    (tableAfter before).values.find? (· == c) = before.find? (· == c) := by
  induction before using List.reverseRecOn with
  | nil => rfl
  | append_singleton before e ih =>
    rw [tableAfter_snoc, List.find?_append, ← ih]
    obtain ⟨i, shared, h⟩ | ⟨-, h⟩ := (tableAfter before).add_cases e <;> rw [h]
    · obtain ⟨-, ⟨d, hd, equal⟩, -⟩ := shared?_eq_some_iff.mp shared
      by_cases he : (e == c) = true
      · -- what `e` shares equals whatever `e` equals, so `e` is not the first that does
        have known : ((tableAfter before).values.find? (· == c)).isSome :=
          Array.find?_isSome.mpr ⟨d, Array.mem_of_getElem? hd, Constant.beq_trans equal he⟩
        obtain ⟨d', hd'⟩ := Option.isSome_iff_exists.mp known
        rw [hd', Option.some_or]
      · simp [he]
    · simp [Array.find?_push]

/-- At the number that an add gives is the first entry that equals the constant, unless there is none or the
constant has mutable storage. -/
theorem get?_add_self (t : ConstantTable) (c : Constant) :
    (t.add c).2.get? (t.add c).1 =
      some (if c.isImmutable then (t.values.find? (· == c)).getD c else c) := by
  rw [Array.find?_eq_bind_findIdx?_getElem?]
  obtain ⟨i, shared, h⟩ | ⟨new, h⟩ := t.add_cases c <;> rw [h]
  · obtain ⟨hc, ⟨d, hd, -⟩, -⟩ := shared?_eq_some_iff.mp shared
    rw [shared?, if_pos hc] at shared
    unfold get? at *
    rw [if_pos hc, shared, Option.bind_some, hd, Option.getD_some]
  · rw [get?_push, if_pos rfl]
    split
    · rename_i hc
      rw [shared?, if_pos hc] at new
      rw [new]
      rfl
    · rfl

/-- At the number of a constant is what stands for it, from then on. -/
theorem get?_tableAfter (before : List Constant) (c : Constant) (after : List Constant) :
    (tableAfter (before ++ c :: after)).get? (numberOf before c) = some (standIn before c) := by
  rw [List.append_cons]
  refine get?_tableAfter_append ?_ after
  rw [tableAfter_snoc, numberOf, get?_add_self, find?_tableAfter, standIn]

theorem get?_tableAfter_first (c : Constant) (after : List Constant) :
    (tableAfter (c :: after)).get? 0 = some c := by
  have number : numberOf [] c = 0 := by simp [numberOf, tableAfter, add, empty, size]
  have alone : standIn [] c = c := by simp [standIn]
  rw [← number, ← List.nil_append (c :: after), get?_tableAfter, alone]

/-! ### What stands for a constant -/

theorem unsigned_standIn (before : List Constant) (c : Constant) :
    (standIn before c).unsigned = c.unsigned := by
  unfold standIn
  split
  · cases h : before.find? (· == c) with
    | none => rfl
    | some d => exact (Constant.beq_iff.mp (List.find?_some (p := (· == c)) h)).2
  · rfl

/-- A constant that is in the table already gets the number it has there if and only if every float in it is a
number. -/
theorem numberOf_eq_iff (hc : c.isImmutable = true) (hi : (tableAfter before).get? i = some c) :
    numberOf before c = i ↔ c.Numeric := by
  rw [← Constant.beq_self_iff]
  unfold numberOf
  obtain ⟨j, shared, h⟩ | ⟨new, h⟩ := (tableAfter before).add_cases c <;> rw [h]
  · obtain ⟨-, ⟨d, hd, equal⟩, first⟩ := shared?_eq_some_iff.mp shared
    constructor
    · rintro rfl
      rwa [Option.some.inj (hd.symm.trans hi)] at equal
    · intro same
      obtain hlt | rfl | hlt := Nat.lt_trichotomy j i
      · rw [first_tableAfter before j i d c hlt hd hi hc] at equal
        cases equal
      · rfl
      · rw [first i hlt c hi] at same
        cases same
  · have different := shared?_eq_none_iff.mp new hc i c hi
    exact iff_of_false (Nat.ne_of_gt (lt_size_of_get? hi)) (by rw [different]; nofun)

/-- Two adds give different numbers if one of them is of a value with mutable storage. -/
theorem numberOf_ne (before : List Constant) (c : Constant) (between : List Constant) (d : Constant)
    (h : c.isImmutable = false ∨ d.isImmutable = false) :
    numberOf before c ≠ numberOf (before ++ c :: between) d := by
  have held := get?_tableAfter before c between
  unfold numberOf at *
  obtain ⟨j, shared, hd⟩ | ⟨-, hd⟩ := (tableAfter (before ++ c :: between)).add_cases d <;> rw [hd]
  · obtain ⟨immutable, ⟨e, he, equal⟩, -⟩ := shared?_eq_some_iff.mp shared
    have mutableC : c.isImmutable = false := h.resolve_right (by rw [immutable]; nofun)
    rintro rfl
    have : e = c := by
      rw [held, standIn, if_neg (by rw [mutableC]; nofun)] at he
      exact (Option.some.inj he).symm
    rw [← Constant.isImmutable_eq_of_beq equal, this, mutableC] at immutable
    cases immutable
  · exact Nat.ne_of_lt (lt_size_of_get? held)

/-- What the table holds of the constants added to it, in whatever order.

* At the number that an add gives is, from then on, the first of the values added that equals the constant, or the
  constant itself if it has mutable storage or none equals it. That is the constant but for the signs of zeros, and
  the constant itself if there is no zero in it.
* An immutable constant that is in the table gets the number it has there, exactly if every float in it is a number.
* Of two adds of which one is of a value with mutable storage, each gives its own number. -/
theorem add_stores (before : List Constant) (c : Constant) :
    (∀ after, (tableAfter (before ++ c :: after)).get? (numberOf before c) = some (standIn before c)) ∧
      (standIn before c).unsigned = c.unsigned ∧
      ((∀ x ∈ c.floats, x ≠ 0.0 ∧ x ≠ -0.0) → standIn before c = c) ∧
      (c.isImmutable = true → ∀ i, (tableAfter before).get? i = some c →
        (numberOf before c = i ↔ c.Numeric)) ∧
      ∀ between d, c.isImmutable = false ∨ d.isImmutable = false →
        numberOf before c ≠ numberOf (before ++ c :: between) d :=
  ⟨get?_tableAfter before c, unsigned_standIn before c,
    fun h => Constant.eq_of_unsigned_eq (unsigned_standIn before c) h,
    fun hc _ hi => numberOf_eq_iff hc hi, numberOf_ne before c⟩

/-- A float that is added again is held at its first number and gets that number; an array added after it gets one of
its own. -/
theorem add_stores_again :
    (∀ after, (tableAfter ([.float 1.5, .array []] ++ .float 1.5 :: after)).get? 0 = some (.float 1.5)) ∧
      numberOf [.float 1.5, .array []] (.float 1.5) = 0 ∧
      numberOf [.float 1.5, .array []] (.float 1.5) ≠
        numberOf ([.float 1.5, .array []] ++ .float 1.5 :: []) (.array []) :=
  have stores := add_stores [.float 1.5, .array []] (.float 1.5)
  have same : standIn [.float 1.5, .array []] (.float 1.5) = .float 1.5 := stores.2.2.1 (by decide +kernel)
  have number : numberOf [.float 1.5, .array []] (.float 1.5) = 0 :=
    (stores.2.2.2.1 rfl 0 (get?_tableAfter_first (.float 1.5) [.array []])).mpr (by decide +kernel)
  ⟨fun after => by rw [← number, stores.1 after, same], number, stores.2.2.2.2 [] (.array []) (.inr rfl)⟩

/-- The zero of the other sign is not stored: at its number stays the zero that was added before, whose text is
another. What is no number gets a second entry. -/
theorem add_stores_fails :
    (tableAfter [.float 0.0, .float (-0.0)]).get? (numberOf [.float 0.0] (.float (-0.0))) = some (.float 0.0) ∧
      (Constant.float 0.0).text = "0.0" ∧ (Constant.float (-0.0)).text = "-0.0" ∧
      (tableAfter [.float (0.0 / 0.0)]).get? 0 = some (.float (0.0 / 0.0)) ∧
      numberOf [.float (0.0 / 0.0)] (.float (0.0 / 0.0)) = 1 :=
  ⟨get?_tableAfter [.float 0.0] (.float (-0.0)) [], by decide, by decide,
    get?_tableAfter_first (.float (0.0 / 0.0)) [], by decide +kernel⟩

end Monomorph.ConstantTable
