import Mathlib.Tactic.Tauto
import Monomorph.Constant.Basic
import Monomorph.Proofs.Constant.Floats

/-! # Which constants are equal

Equality of constants is not identity, and only because of the floats inside: what holds a float that is no number
equals nothing, and the zeros are equal whatever their sign (`beq_iff`). Without floats, equal constants are the same
(`beq_iff_eq_of_floatFree`). -/

namespace Monomorph.Constant

/-! ### The floats inside -/

mutual

/-- The floats in a constant, in order. -/
def floats : Constant → List Float
  | float value => [value]
  | array elements => floatsOf elements
  | object members => floatsOfMembers members
  | variant _ payload => payload.floats
  | _ => []

/-- The floats in a list of constants. -/
def floatsOf : List Constant → List Float
  | [] => []
  | e :: rest => e.floats ++ floatsOf rest

/-- The floats in a list of named constants. -/
def floatsOfMembers : List (String × Constant) → List Float
  | [] => []
  | (_, e) :: rest => e.floats ++ floatsOfMembers rest

end

mutual

/-- The constant, with the sign taken from every zero in it. -/
def unsigned : Constant → Constant
  | float value => float (Decimal.unsignedZero value)
  | array elements => array (unsignedElements elements)
  | object members => object (unsignedMembers members)
  | variant name payload => variant name payload.unsigned
  | c => c

/-- The constants, with the sign taken from every zero in them. -/
def unsignedElements : List Constant → List Constant
  | [] => []
  | e :: rest => e.unsigned :: unsignedElements rest

/-- The named constants, with the sign taken from every zero in them. -/
def unsignedMembers : List (String × Constant) → List (String × Constant)
  | [] => []
  | (name, e) :: rest => (name, e.unsigned) :: unsignedMembers rest

end

/-- Every float in the constant is a number. -/
def Numeric (c : Constant) : Prop := ∀ x ∈ c.floats, x.isNaN = false

instance : DecidablePred Numeric := fun c => inferInstanceAs (Decidable (∀ x ∈ c.floats, x.isNaN = false))

/-- There is no float in the constant. -/
def FloatFree (c : Constant) : Prop := c.floats = []

theorem floatsOfMembers_eq_nil_iff {ms : List (String × Constant)} :
    floatsOfMembers ms = [] ↔ ∀ m ∈ ms, m.2.floats = [] := by
  induction ms with
  | nil => simp [floatsOfMembers]
  | cons m ms ih => rw [floatsOfMembers, List.append_eq_nil_iff, ih, List.forall_mem_cons]

theorem FloatFree.numeric {c : Constant} (h : c.FloatFree) : c.Numeric := by
  rw [Numeric, h]
  nofun

mutual

theorem floats_unsigned : (c : Constant) → c.unsigned.floats = c.floats.map Decimal.unsignedZero
  | unit | boolean _ | integer _ | float _ | string _ => rfl
  | array elements => floatsOf_unsigned elements
  | object members => floatsOfMembers_unsigned members
  | variant _ payload => floats_unsigned payload

theorem floatsOf_unsigned : (es : List Constant) →
    floatsOf (unsignedElements es) = (floatsOf es).map Decimal.unsignedZero
  | [] => rfl
  | e :: rest => by
    rw [unsignedElements, floatsOf, floatsOf, floats_unsigned e, floatsOf_unsigned rest, List.map_append]

theorem floatsOfMembers_unsigned : (ms : List (String × Constant)) →
    floatsOfMembers (unsignedMembers ms) = (floatsOfMembers ms).map Decimal.unsignedZero
  | [] => rfl
  | (_, e) :: rest => by
    rw [unsignedMembers, floatsOfMembers, floatsOfMembers, floats_unsigned e, floatsOfMembers_unsigned rest,
      List.map_append]

end

mutual

theorem unsigned_eq_self : (c : Constant) → (∀ x ∈ c.floats, x ≠ -0.0) → c.unsigned = c
  | unit, _ | boolean _, _ | integer _, _ | string _, _ => rfl
  | float x, h => congrArg float (if_neg (h x (by simp [floats])))
  | array elements, h => congrArg array (unsignedElements_eq_self elements h)
  | object members, h => congrArg object (unsignedMembers_eq_self members h)
  | variant name payload, h => congrArg (variant name) (unsigned_eq_self payload h)

theorem unsignedElements_eq_self : (es : List Constant) → (∀ x ∈ floatsOf es, x ≠ -0.0) →
    unsignedElements es = es
  | [], _ => rfl
  | e :: rest, h => by
    obtain ⟨he, hrest⟩ := List.forall_mem_append.mp h
    rw [unsignedElements, unsigned_eq_self e he, unsignedElements_eq_self rest hrest]

theorem unsignedMembers_eq_self : (ms : List (String × Constant)) → (∀ x ∈ floatsOfMembers ms, x ≠ -0.0) →
    unsignedMembers ms = ms
  | [], _ => rfl
  | (name, e) :: rest, h => by
    obtain ⟨he, hrest⟩ := List.forall_mem_append.mp h
    rw [unsignedMembers, unsigned_eq_self e he, unsignedMembers_eq_self rest hrest]

end

theorem isImmutable_unsigned : (c : Constant) → c.unsigned.isImmutable = c.isImmutable
  | variant _ payload => isImmutable_unsigned payload
  | unit | boolean _ | integer _ | float _ | string _ | array _ | object _ => rfl

/-! ### Equality -/

mutual

theorem eq_iff : (a b : Constant) →
    (eq a b = true ↔ (∀ x ∈ a.floats, x.isNaN = false) ∧ a.unsigned = b.unsigned)
  | unit, b | boolean _, b | integer _, b | string _, b => by cases b <;> simp [eq, floats, unsigned]
  | float x, b => by cases b <;> simp [eq, floats, unsigned, Decimal.beq_iff]
  | array as, b => by cases b <;> simp [eq, floats, unsigned, eqElements_iff as]
  | object as, b => by cases b <;> simp [eq, floats, unsigned, eqMembers_iff as]
  | variant m a, b => by
    cases b <;> simp [eq, floats, unsigned, eq_iff a]
    tauto

theorem eqElements_iff : (as bs : List Constant) →
    (eqElements as bs = true ↔
      (∀ x ∈ floatsOf as, x.isNaN = false) ∧ unsignedElements as = unsignedElements bs)
  | [], bs => by cases bs <;> simp [eqElements, floatsOf, unsignedElements]
  | a :: as, bs => by
    cases bs with
    | nil => simp [eqElements, unsignedElements]
    | cons b bs =>
      simp only [eqElements, floatsOf, unsignedElements, Bool.and_eq_true, eq_iff a b, eqElements_iff as bs,
        List.forall_mem_append, List.cons.injEq]
      tauto

theorem eqMembers_iff : (as bs : List (String × Constant)) →
    (eqMembers as bs = true ↔
      (∀ x ∈ floatsOfMembers as, x.isNaN = false) ∧ unsignedMembers as = unsignedMembers bs)
  | [], bs => by cases bs <;> simp [eqMembers, floatsOfMembers, unsignedMembers]
  | (m, a) :: as, bs => by
    cases bs with
    | nil => simp [eqMembers, unsignedMembers]
    | cons b bs =>
      simp only [eqMembers, floatsOfMembers, unsignedMembers, Bool.and_eq_true, beq_iff_eq, eq_iff a b.2,
        eqMembers_iff as bs, List.forall_mem_append, List.cons.injEq, Prod.mk.injEq]
      tauto

end

variable {a b c : Constant}

/-- Two constants are equal if and only if every float in them is a number and they are the same but for the signs
of zeros. -/
theorem beq_iff : (a == b) = true ↔ a.Numeric ∧ a.unsigned = b.unsigned := eq_iff a b

theorem beq_self_iff : (a == a) = true ↔ a.Numeric := by
  rw [beq_iff, and_iff_left rfl]

theorem beq_trans (h : (a == b) = true) (h' : (b == c) = true) : (a == c) = true := by
  rw [beq_iff] at h h' ⊢
  exact ⟨h.1, h.2.trans h'.2⟩

theorem isImmutable_eq_of_beq (h : (a == b) = true) : a.isImmutable = b.isImmutable := by
  rw [← isImmutable_unsigned a, (beq_iff.mp h).2, isImmutable_unsigned]

/-- Constants without floats are equal if and only if they are the same. -/
theorem beq_iff_eq_of_floatFree (ha : a.FloatFree) (hb : b.FloatFree) : (a == b) = true ↔ a = b := by
  rw [beq_iff, and_iff_right ha.numeric, unsigned_eq_self a (ha ▸ nofun), unsigned_eq_self b (hb ▸ nofun)]

/-- A constant that is the same as one without zeros but for the signs of zeros is that constant. -/
theorem eq_of_unsigned_eq (h : a.unsigned = b.unsigned) (hb : ∀ x ∈ b.floats, x ≠ 0.0 ∧ x ≠ -0.0) : a = b := by
  have hb' : b.unsigned = b := unsigned_eq_self b fun x hx => (hb x hx).2
  have ha : ∀ x ∈ a.floats, x ≠ -0.0 := by
    rintro x hx rfl
    have hz : Decimal.unsignedZero (-0.0) ∈ b.floats := by
      rw [← hb', ← h, floats_unsigned]
      exact List.mem_map_of_mem hx
    exact (hb _ hz).1 (by decide)
  rw [← unsigned_eq_self a ha, h, hb']

end Monomorph.Constant
