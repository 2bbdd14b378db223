import Mathlib

/-! # Which floats are equal

Floats are compared as numbers: what is not a number equals nothing, itself included, and the two zeros are equal
though their texts differ. These are the only exceptions: other floats are equal if and only if they are the same
(`beq_iff`). A double that is a number is told by its sign, its exponent field and its mantissa field, and what they
denote tells them (`denoted_inj`): a mantissa with the implicit bit is too great to be one of a subnormal double. -/

namespace Monomorph.Decimal

open Float.Model Float.Model.UnpackedFloat

/-- The float, with its sign taken away if it is a zero. -/
def unsignedZero (x : Float) : Float := if x = -0.0 then 0.0 else x

/-! ### The fields of a double -/

theorem toBitVec_ofBitVec (b : BitVec 1) : (Sign.ofBitVec b).toBitVec = b := by
  revert b
  decide

theorem pack_unpack_fields (b : BitVec Format.binary64.numBits) :
    packComponents .binary64 (.ofBitVec (unpackSign b)) (unpackExponent b) (unpackMantissa b) = b := by
  simp only [packComponents, toBitVec_ofBitVec, unpackSign, unpackExponent, unpackMantissa, BitVec.extractLsb]
  ext i hi
  grind

theorem toNat_implicit (m : BitVec 52) : (1#1 ++ m).toNat = 2 ^ 52 + m.toNat := by
  rw [BitVec.toNat_append, ← Nat.shiftLeft_add_eq_or_of_lt m.isLt]
  simp [Nat.shiftLeft_eq]

/-- What the fields of a double denote. -/
def denoted (s : Sign) (e : BitVec 11) (m : BitVec 52) : UnpackedFloat :=
  if e = -1#11 then if m = 0#52 then .infinity s else .notANumber
  else if e = 0#11 then
    if h : m = 0#52 then .zero s
    else .finite s m.toNat ((e.toNat : Int) - (1023 + 52 : Nat) + 1)
      (by simpa [BitVec.toNat_pos, BitVec.pos_iff_ne_zero])
  else .finite s (1#1 ++ m).toNat ((e.toNat : Int) - (1023 + 52 : Nat)) (by rw [toNat_implicit]; omega)

theorem denoted_eq_notANumber {s : Sign} {e : BitVec 11} {m : BitVec 52} (h : denoted s e m = .notANumber) :
    e = -1#11 ∧ m ≠ 0#52 := by
  unfold denoted at h
  split_ifs at h
  simp_all

theorem denoted_inj {s s' : Sign} {e e' : BitVec 11} {m m' : BitVec 52} (h : denoted s e m = denoted s' e' m')
    (number : denoted s e m ≠ .notANumber) : s = s' ∧ e = e' ∧ m = m' := by
  have hm := m.isLt
  have hm' := m'.isLt
  unfold denoted at h number
  -- left is a subnormal double that denotes what one with the implicit bit does
  split_ifs at h number <;> simp_all [-BitVec.toNat_append, toNat_implicit, ← BitVec.toNat_inj]
  omega

theorem unpack_inj {x y : Float} (h : x.toModel.unpack = y.toModel.unpack) : x = y := by
  obtain ⟨⟨⟨b⟩, hb⟩⟩ := x
  obtain ⟨⟨⟨b'⟩, hb'⟩⟩ := y
  suffices b = b' by subst this; rfl
  by_cases number : UnpackedFloat.unpack .binary64 b = .notANumber
  · obtain ⟨he, hm⟩ := denoted_eq_notANumber number
    obtain ⟨he', hm'⟩ := denoted_eq_notANumber (h.symm.trans number)
    exact (hb.eq_packedNaN he hm).trans (hb'.eq_packedNaN he' hm').symm
  · obtain ⟨hs, he, hm⟩ := denoted_inj h number
    exact (pack_unpack_fields b).symm.trans (by rw [hs, he, hm, pack_unpack_fields])

/-! ### Comparing -/

@[simp] theorem compare_sign_self (s : Sign) : compare s s = .eq := by
  cases s <;> rfl

theorem compare_eq_iff {a b : UnpackedFloat} : a.compare b = some .eq ↔
    a ≠ .notANumber ∧ (a = b ∨ ∃ s t, a = .zero s ∧ b = .zero t) := by
  cases a with
  | notANumber => cases b <;> simp [UnpackedFloat.compare]
  | infinity s =>
    cases s <;> cases b with
    | infinity t | finite t _ _ _ => cases t <;> simp [UnpackedFloat.compare]
    | _ => simp [UnpackedFloat.compare]
  | zero s =>
    cases b with
    | infinity t | finite t _ _ _ => cases t <;> simp [UnpackedFloat.compare]
    | _ => simp [UnpackedFloat.compare]
  | finite s m e h =>
    cases s <;> cases b with
    | infinity t | finite t _ _ _ => cases t <;> simp [UnpackedFloat.compare, Ordering.then_eq_eq, and_comm]
    | _ => simp [UnpackedFloat.compare]

theorem unpack_eq_zero_iff {x : Float} : (∃ s, x.toModel.unpack = .zero s) ↔ x = 0.0 ∨ x = -0.0 := by
  have plus : (0.0 : Float).toModel.unpack = .zero .positive := rfl
  have minus : (-0.0 : Float).toModel.unpack = .zero .negative := rfl
  constructor
  · rintro ⟨s | s, h⟩
    · exact .inr (unpack_inj (h.trans minus.symm))
    · exact .inl (unpack_inj (h.trans plus.symm))
  · rintro (rfl | rfl)
    · exact ⟨_, plus⟩
    · exact ⟨_, minus⟩

theorem isNaN_eq_false_iff {x : Float} : x.isNaN = false ↔ x.toModel.unpack ≠ .notANumber := by
  change x.toModel.unpack.isNaN = false ↔ _
  cases x.toModel.unpack <;> simp [UnpackedFloat.isNaN]

/-- Two floats are equal if and only if they are numbers and the same but for the sign of a zero. -/
theorem beq_iff {x y : Float} : (x == y) = true ↔ x.isNaN = false ∧ unsignedZero x = unsignedZero y := by
  have compared : (x == y) = true ↔ x.toModel.unpack.compare y.toModel.unpack = some .eq :=
    @beq_iff_eq (Option Ordering) _ _ _ _
  have zeros : (∃ s t, x.toModel.unpack = .zero s ∧ y.toModel.unpack = .zero t) ↔
      (x = 0.0 ∨ x = -0.0) ∧ (y = 0.0 ∨ y = -0.0) := by
    rw [← unpack_eq_zero_iff, ← unpack_eq_zero_iff]
    exact ⟨fun ⟨s, t, hx, hy⟩ => ⟨⟨s, hx⟩, t, hy⟩, fun ⟨⟨s, hx⟩, t, hy⟩ => ⟨s, t, hx, hy⟩⟩
  rw [compared, compare_eq_iff, ← isNaN_eq_false_iff, zeros]
  refine and_congr_right fun _ => ?_
  have same : x.toModel.unpack = y.toModel.unpack ↔ x = y := ⟨unpack_inj, fun h => h ▸ rfl⟩
  rw [same]
  unfold unsignedZero
  split_ifs <;> grind

end Monomorph.Decimal
