import Monomorph.Proofs.Code.Run
import Monomorph.Proofs.Meaning.Tree

/-! # Running code

What lowered code means, with the same primitive operations as trees: instructions run in order, the code
of the arm that a branch takes runs in its place, `phi` takes the version defined last, and giving back a
value ends the run. The state is the history of definitions. -/

namespace Monomorph

variable {A : Type} (P : Primitives A) (table : List Constant)

def Primitives.read (h : History (Value A)) (v : Version) : Value A := h.newest P.unassigned [v]

def History.define {V : Type} (h : History V) (v : Version) (x : V) : History V := ⟨v, x, false⟩ :: h

namespace Instr

/-- Run an instruction without nested code. -/
def execOp (h : History (Value A)) :
    Op → List Version → Option Version → Except (Stop A) (History (Value A))
  | .load value, [], some dest => .ok (h.define dest (.atom (P.literal value)))
  | .loadVariant name, [v], some dest => .ok (h.define dest (.variant name (P.read h v)))
  | .copy, [v], some dest => .ok (h.define dest (P.read h v))
  | .binary o, [l, r], some dest => do
    return h.define dest (← P.applyBinary o (P.read h l) (P.read h r))
  | .unary o, [v], some dest => do
    return h.define dest (← P.applyUnary o (P.read h v))
  | .giveBack, [v], none => .error (.returned (P.read h v))
  | .phi, vs, some dest => .ok (⟨dest, h.newest P.unassigned vs, true⟩ :: h)
  | .readCapture name, _, _ | .writeCapture name, _, _ => .error (.stuck (.capture name))
  | _, _, _ => .error (.stuck .other)

/-- The number of the arm of a branch on values. -/
def selectValue (v : Value A) (arms : List (Nat × List Instr)) : Option Nat :=
  arms.findIdx? fun arm => (table[arm.1]?).any fun c => P.isConstant c v

/-- The number of the arm of a branch on variants. -/
def selectVariant (name : String) (arms : List (CodeArm (List Instr))) : Option Nat :=
  arms.findIdx? fun arm => arm.variant == name

mutual

def exec : Instr → History (Value A) → Except (Stop A) (History (Value A))
  | .op o args dest, h => execOp P h o args dest
  | .closure .., _ => .error (.stuck .other)
  | .branchValue v arms otherwise, h =>
    match selectValue P table (P.read h v) arms with
    | some k => execValueArm arms k h
    | none => execs otherwise h
  | .branchVariant v arms otherwise, h =>
    match P.read h v with
    | .variant name payload =>
      match selectVariant name arms with
      | some k => execVariantArm arms k payload h
      | none => execs otherwise h
    | .atom a => .error (.stuck (.split (.atom a)))

def execs : List Instr → History (Value A) → Except (Stop A) (History (Value A))
  | [], h => .ok h
  | i :: rest, h => do execs rest (← exec i h)

/-- Run one arm of a branch on values. -/
def execValueArm : List (Nat × List Instr) → Nat → History (Value A) →
    Except (Stop A) (History (Value A))
  | [], _, _ => .error (.stuck .other)
  | (_, body) :: _, 0, h => execs body h
  | _ :: rest, k + 1, h => execValueArm rest k h

/-- Run one arm of a branch on variants, with the payload bound if the arm binds it. -/
def execVariantArm : List (CodeArm (List Instr)) → Nat → Value A → History (Value A) →
    Except (Stop A) (History (Value A))
  | [], _, _, _ => .error (.stuck .other)
  | ⟨_, binding, body⟩ :: _, 0, payload, h => execs body (payloadHistory binding payload ++ h)
  | _ :: rest, k + 1, payload, h => execVariantArm rest k payload h

end

theorem execs_append (code rest : List Instr) (h : History (Value A)) :
    execs P table (code ++ rest) h = (do execs P table rest (← execs P table code h)) := by
  induction code generalizing h with
  | nil => rfl
  | cons i code ih =>
    rw [List.cons_append, execs, execs]
    cases exec P table i h with
    | error stop => rfl
    | ok h' => exact ih h'

theorem execs_singleton (i : Instr) (h : History (Value A)) :
    execs P table [i] h = exec P table i h := by
  rw [execs]
  cases exec P table i h <;> rfl

/-- Running one arm of a branch on values is running its code. -/
theorem execValueArm_eq {arms : List (Nat × List Instr)} {k id : Nat} {body : List Instr}
    (harm : arms[k]? = some (id, body)) (h : History (Value A)) :
    execValueArm P table arms k h = execs P table body h := by
  induction arms generalizing k with
  | nil => cases harm
  | cons arm arms ih =>
    cases k with
    | zero =>
      cases harm
      rfl
    | succ k => exact ih harm

theorem execVariantArm_eq {arms : List (CodeArm (List Instr))} {k : Nat} {arm : CodeArm (List Instr)}
    (harm : arms[k]? = some arm) (payload : Value A) (h : History (Value A)) :
    execVariantArm P table arms k payload h =
      execs P table arm.body (payloadHistory arm.binding payload ++ h) := by
  induction arms generalizing k with
  | nil => cases harm
  | cons first arms ih =>
    cases k with
    | zero =>
      cases harm
      rfl
    | succ k => exact ih harm

theorem execs_of_merges {phis : List Instr} (hphis : ∀ i ∈ phis, ∃ vs w, i = .op .phi vs (some w))
    (h : History (Value A)) :
    ∃ h', execs P table phis h = .ok h' ∧ Runs P.unassigned phis [] h h' := by
  induction phis generalizing h with
  | nil => exact ⟨h, rfl, .nil h⟩
  | cons i phis ih =>
    obtain ⟨⟨vs, w, rfl⟩, hrest⟩ := List.forall_mem_cons.1 hphis
    obtain ⟨h', hexec, hrun⟩ := ih hrest (⟨w, h.newest P.unassigned vs, true⟩ :: h)
    exact ⟨h', hexec, .phi hrun⟩

end Instr
end Monomorph
