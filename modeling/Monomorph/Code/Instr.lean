import Monomorph.Constant.Basic
import Monomorph.Expr
import Monomorph.Type.Kind

/-!
# Instructions

Lowered code is a list of instructions over *slots*. Every assignment to a slot makes a new *version* of
it, so a version has one definition. Branches nest their code inside the branching instruction, and where
their arms meet again `phi` picks the version that the arm taken ends with. A closure has slots of its
own and reaches the captured locals of the code around it by name.
-/

namespace Monomorph

/-- One version of one slot. -/
structure Version where
  slot : Nat
  version : Nat
  deriving DecidableEq, Inhabited, Repr

/-- Storage for one local or intermediate value. -/
structure Slot where
  type : TypeVar
  isArgument : Bool
  /-- Whether a closure inside uses it, so that its storage has to be shared. -/
  captured : Bool
  /-- Number of versions so far. -/
  versions : Nat
  deriving DecidableEq, Inhabited, Repr

/-- What an instruction without nested code does. -/
inductive Op where
  | load (value : Literal)
  /-- An object whose members, of these names, are the arguments. -/
  | loadObject (names : List String)
  | loadArray
  /-- An array of the first argument repeated as often as the second says. -/
  | loadRepeated
  | loadVariant (name : String)
  | loadConstant (id : Nat)
  | loadExternal (path : Path)
  | readMember (name : String)
  | writeMember (name : String)
  | readElement
  | writeElement
  | readCapture (name : String)
  | writeCapture (name : String)
  | copy
  | binary (op : BinaryOp)
  | unary (op : UnaryOp)
  | callProcedure (path : Path) (variant : Nat)
  /-- A call of the first argument with the others. -/
  | callClosure
  | giveBack
  | phi
  deriving Inhabited

/-- One arm of a branch on variants, with the version that its payload is bound to. -/
structure CodeArm (β : Type) where
  variant : String
  binding : Option Version
  body : β

/-- An instruction. -/
inductive Instr where
  | op (op : Op) (args : List Version) (dest : Option Version)
  /-- A closure with the types of its arguments and result, the captured locals and its own code. -/
  | closure (args : List TypeVar) (returns : TypeVar) (captures : List (String × Version))
      (slots : Array Slot) (body : List Instr) (dest : Version)
  /-- Run the arm whose constant equals the value, else the last arm. -/
  | branchValue (value : Version) (arms : List (Nat × List Instr)) (otherwise : List Instr)
  /-- Run the arm of the value's variant, else the last arm. -/
  | branchVariant (value : Version) (arms : List (CodeArm (List Instr))) (otherwise : List Instr)

/-- The code of one variant of a procedure. -/
structure Procedure where
  path : Path
  variant : Nat
  args : List TypeVar
  returns : TypeVar
  slots : Array Slot
  body : List Instr

/-- A lowered program. -/
structure Module where
  procedures : List Procedure
  constants : ConstantTable

/-- The code of a variant of a procedure. -/
def Module.procedure? (m : Module) (path : Path) (variant : Nat) : Option Procedure :=
  m.procedures.find? fun p => p.path == path && p.variant == variant

/-- Number of slots that hold arguments. -/
def argumentCount (slots : Array Slot) : Nat := slots.countP Slot.isArgument

/-! ### Nested code -/

mutual

/-- Number of instructions in an instruction, itself included; the code of closures does not count. -/
def Instr.count : Instr → Nat
  | .op .. => 1
  | .closure .. => 1
  | .branchValue _ arms otherwise => 1 + countValueArms arms + countInstrs otherwise
  | .branchVariant _ arms otherwise => 1 + countVariantArms arms + countInstrs otherwise

/-- Number of instructions in a list, those in branches included. -/
def countInstrs : List Instr → Nat
  | [] => 0
  | i :: rest => i.count + countInstrs rest

/-- Number of instructions in the arms of a branch on values. -/
def countValueArms : List (Nat × List Instr) → Nat
  | [] => 0
  | (_, body) :: rest => countInstrs body + countValueArms rest

/-- Number of instructions in the arms of a branch on variants. -/
def countVariantArms : List (CodeArm (List Instr)) → Nat
  | [] => 0
  | ⟨_, _, body⟩ :: rest => countInstrs body + countVariantArms rest

end

/-- A closure instruction, without its code. -/
structure ClosureSummary where
  args : List TypeVar
  returns : TypeVar
  captures : List String
  slots : Array Slot

mutual

/-- The closures in an instruction, each followed by those in its own code. -/
def Instr.closures : Instr → List ClosureSummary
  | .op .. => []
  | .closure args returns captures slots body _ =>
    ⟨args, returns, captures.map (·.1), slots⟩ :: closuresOf body
  | .branchValue _ arms otherwise => valueArmClosures arms ++ closuresOf otherwise
  | .branchVariant _ arms otherwise => variantArmClosures arms ++ closuresOf otherwise

/-- The closures in a list of instructions. -/
def closuresOf : List Instr → List ClosureSummary
  | [] => []
  | i :: rest => i.closures ++ closuresOf rest

/-- The closures in the arms of a branch on values. -/
def valueArmClosures : List (Nat × List Instr) → List ClosureSummary
  | [] => []
  | (_, body) :: rest => closuresOf body ++ valueArmClosures rest

/-- The closures in the arms of a branch on variants. -/
def variantArmClosures : List (CodeArm (List Instr)) → List ClosureSummary
  | [] => []
  | ⟨_, _, body⟩ :: rest => closuresOf body ++ variantArmClosures rest

end

end Monomorph
