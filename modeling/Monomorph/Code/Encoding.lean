import Monomorph.Code.Instr
import Monomorph.Type.Tree

/-!
# Encoded modules

A lowered program as JSON, for a code generator that is another program. Type variables and constants
are given by their numbers, operations by their names. `TypeTree.encode` gives the type that a variable
stands for.
-/

namespace Monomorph

/-- A list, encoded element by element. -/
def encodeList {α : Type} (encode : α → Json) (xs : List α) : Json := .array (xs.map encode)

def Path.encode (p : Path) : Json := .object [("elements", encodeList .string p.elements)]

def Span.encode (s : Span) : Json :=
  .object [("file", .nat s.file), ("start", .nat s.start), ("end", .nat s.stop)]

/-- A version: its slot and its number. -/
def Version.encode (v : Version) : Json :=
  .object [("slot", .nat v.slot), ("version", .nat v.version)]

def encodeOption {α : Type} (encode : α → Json) : Option α → Json
  | some a => encode a
  | none => .null

def TypeVar.encode (v : TypeVar) : Json := .nat v.index

mutual

def TypeTree.encode : TypeTree → Json
  | .unknown => .string "Unknown"
  | .unit => .string "Unit"
  | .boolean => .string "Boolean"
  | .integer => .string "Integer"
  | .float => .string "Float"
  | .string => .string "String"
  | .array element => .tagged "Array" element.encode
  | .object members => .tagged "Object" (.array (encodeNamedTrees members))
  | .union variants => .tagged "Union" (.array (encodeNamedTrees variants))
  | .closure args returns =>
    .tagged "Closure" (.object [("args", .array (encodeTrees args)), ("returns", returns.encode)])
  | .recursive depth => .tagged "Recursive" (.nat depth)

def encodeTrees : List TypeTree → List Json
  | [] => []
  | t :: rest => t.encode :: encodeTrees rest

/-- Named types: pairs of name and type. -/
def encodeNamedTrees : List (String × TypeTree) → List Json
  | [] => []
  | (name, t) :: rest => .array [.string name, t.encode] :: encodeNamedTrees rest

end

def Slot.encode (s : Slot) : Json :=
  .object [("ty", s.type.encode), ("is_argument", .bool s.isArgument),
    ("captured", .bool s.captured), ("versions", .nat s.versions)]

def encodeSlots (slots : Array Slot) : Json :=
  .object [("slots", encodeList Slot.encode slots.toList)]

def BinaryOp.encodedName : BinaryOp → String
  | add => "Add"
  | subtract => "Subtract"
  | multiply => "Multiply"
  | divide => "Divide"
  | modulo => "Modulo"
  | less => "LessThan"
  | greater => "GreaterThan"
  | lessEqual => "LessThanEqual"
  | greaterEqual => "GreaterThanEqual"
  | equal => "Equals"
  | notEqual => "NotEquals"
  | and => "And"
  | or => "Or"

/-- What an instruction without nested code does. -/
def Op.encode : Op → Json
  | load .unit => .string "LoadUnit"
  | load (.boolean value) => .tagged "LoadBoolean" (.bool value)
  | load (.integer value) => .tagged "LoadInteger" (.number (toString value.toInt))
  | load (.float value) => .tagged "LoadFloat" (.number (Decimal.Layout.encoded.text value))
  | load (.string value) => .tagged "LoadString" (.string value)
  | loadObject names => .tagged "LoadObject" (.object [("names", encodeList .string names)])
  | loadArray => .string "LoadFixedArray"
  | loadRepeated => .string "LoadRepeatArray"
  | loadVariant name => .tagged "LoadVariant" (.object [("name", .string name)])
  | loadConstant id => .tagged "LoadStaticValue" (.nat id)
  | loadExternal path => .tagged "LoadExternal" path.encode
  | readMember name => .tagged "ReadObject" (.object [("member", .string name)])
  | writeMember name => .tagged "WriteObject" (.object [("member", .string name)])
  | readElement => .string "ReadArray"
  | writeElement => .string "WriteArray"
  | readCapture name => .tagged "ReadCapture" (.object [("name", .string name)])
  | writeCapture name => .tagged "WriteCapture" (.object [("name", .string name)])
  | copy => .string "Copy"
  | binary op => .string op.encodedName
  | unary .not => .string "Not"
  | unary .negate => .string "Negate"
  | callProcedure path variant =>
    .tagged "CallProcedure" (.object [("path", path.encode), ("variant", .nat variant)])
  | callClosure => .string "CallClosure"
  | giveBack => .string "Return"
  | phi => .string "Phi"

/-- An instruction: what it does, its arguments and its destination. -/
def encodeInstr (kind : Json) (args : List Version) (dest : Option Version) : Json :=
  .object [("kind", kind), ("args", encodeList Version.encode args),
    ("dest", encodeOption Version.encode dest)]

mutual

def Instr.encode : Instr → Json
  | .op op args dest => encodeInstr op.encode args dest
  | .closure args returns captures slots body dest =>
    encodeInstr
      (.tagged "LoadClosure" (.object
        [("args", encodeList TypeVar.encode args), ("returns", returns.encode),
          ("captures", encodeList (fun c => .string c.1) captures),
          ("context", encodeSlots slots), ("body", .array (encodeInstrs body))]))
      (captures.map (·.2)) (some dest)
  | .branchValue value arms otherwise =>
    encodeInstr
      (.tagged "BranchOnValue" (.object
        [("values", encodeList (fun arm => .nat arm.1) arms),
          ("branches", .array (encodeValueArms arms)),
          ("else_branch", .array (encodeInstrs otherwise))]))
      [value] none
  | .branchVariant value arms otherwise =>
    encodeInstr
      (.tagged "BranchOnVariant" (.object
        [("variants", encodeList (fun arm => .string arm.variant) arms),
          ("bindings", encodeList (fun arm => encodeOption Version.encode arm.binding) arms),
          ("branches", .array (encodeVariantArms arms)),
          ("else_branch", .array (encodeInstrs otherwise))]))
      [value] none

def encodeInstrs : List Instr → List Json
  | [] => []
  | i :: rest => i.encode :: encodeInstrs rest

/-- The code of the arms of a branch on values. -/
def encodeValueArms : List (Nat × List Instr) → List Json
  | [] => []
  | (_, body) :: rest => .array (encodeInstrs body) :: encodeValueArms rest

/-- The code of the arms of a branch on variants. -/
def encodeVariantArms : List (CodeArm (List Instr)) → List Json
  | [] => []
  | ⟨_, _, body⟩ :: rest => .array (encodeInstrs body) :: encodeVariantArms rest

end

/-- The code of one variant of a procedure. -/
def Procedure.encode (p : Procedure) : Json :=
  .object [("path", p.path.encode), ("variant", .nat p.variant),
    ("args", encodeList TypeVar.encode p.args), ("returns", p.returns.encode),
    ("context", encodeSlots p.slots), ("body", .array (encodeInstrs p.body))]

def Module.encode (m : Module) : Json :=
  .object [("procedures", encodeList Procedure.encode m.procedures),
    ("static_values", m.constants.encode)]

end Monomorph
