import Monomorph.Code.Instr

/-!
# Listings

Code as text: one instruction a line, `v0.1 = add v0.0, v1.0`, with the code nested in an instruction
indented below it.
-/

namespace Monomorph

def Version.text (v : Version) : String := s!"v{v.slot}.{v.version}"

def BinaryOp.mnemonic : BinaryOp → String
  | add => "add"
  | subtract => "subtract"
  | multiply => "multiply"
  | divide => "divide"
  | modulo => "modulo"
  | less => "less_than"
  | greater => "greater_than"
  | lessEqual => "less_than_equal"
  | greaterEqual => "greater_than_equal"
  | equal => "equals"
  | notEqual => "not_equals"
  | and => "and"
  | or => "or"

def Literal.mnemonic : Literal → String
  | unit => "load_unit"
  | boolean value => s!"load_boolean {value}"
  | integer value => s!"load_integer {value.toInt}"
  | float value => s!"load_float {Decimal.Layout.listing.text value}"
  | string value => s!"load_string {Text.quoted value}"

/-- What an operation is called in listings. -/
def Op.mnemonic : Op → String
  | load value => value.mnemonic
  | loadObject names => "load_object \x7b" ++ ", ".intercalate names ++ "\x7d"
  | loadArray => "load_fixed_array"
  | loadRepeated => "load_repeat_array"
  | loadVariant name => s!"load_variant #{name}"
  | loadConstant id => s!"load_static s{id}"
  | loadExternal path => s!"load_external {path.text}"
  | readMember name => s!"read_object .{name}"
  | writeMember name => s!"write_object .{name}"
  | readElement => "read_array"
  | writeElement => "write_array"
  | readCapture name => s!"read_capture {name}"
  | writeCapture name => s!"write_capture {name}"
  | copy => "copy"
  | binary op => op.mnemonic
  | unary .not => "not"
  | unary .negate => "negate"
  | callProcedure path variant => s!"call {path.text}#{variant}"
  | callClosure => "call_closure"
  | giveBack => "return"
  | phi => "phi"

/-- An instruction without the code nested in it. -/
def listLine (depth : Nat) (dest : Option Version) (mnemonic : String) (args : List Version) :
    String :=
  let target :=
    match dest with
    | some v => v.text ++ " = "
    | none => ""
  let operands := if args.isEmpty then "" else " " ++ ", ".intercalate (args.map Version.text)
  "".pushn ' ' (2 * depth) ++ target ++ mnemonic ++ operands ++ "\n"

def listHeading (depth : Nat) (heading : String) : String :=
  "".pushn ' ' (2 * depth + 2) ++ heading ++ ":\n"

mutual

/-- The listing of an instruction at a depth of nesting. -/
def Instr.listing (depth : Nat) : Instr → String
  | .op op args dest => listLine depth dest op.mnemonic args
  | .closure _ _ captures _ body dest =>
    let names := ", ".intercalate (captures.map (·.1))
    listLine depth (some dest) s!"load_closure [{names}]" (captures.map (·.2))
      ++ listingBelow (depth + 1) body
  | .branchValue value arms otherwise =>
    listLine depth none "branch_on_value" [value] ++ valueArmListing depth arms
      ++ listHeading depth "else" ++ listingBelow (depth + 2) otherwise
  | .branchVariant value arms otherwise =>
    listLine depth none "branch_on_variant" [value] ++ variantArmListing depth arms
      ++ if otherwise.isEmpty then ""
        else listHeading depth "else" ++ listingBelow (depth + 2) otherwise

/-- The listing of instructions at a depth of nesting. -/
def listingBelow (depth : Nat) : List Instr → String
  | [] => ""
  | i :: rest => i.listing depth ++ listingBelow depth rest

/-- The listing of the arms of a branch on values. -/
def valueArmListing (depth : Nat) : List (Nat × List Instr) → String
  | [] => ""
  | (id, body) :: rest =>
    listHeading depth s!"case s{id}" ++ listingBelow (depth + 2) body ++ valueArmListing depth rest

/-- The listing of the arms of a branch on variants. -/
def variantArmListing (depth : Nat) : List (CodeArm (List Instr)) → String
  | [] => ""
  | ⟨variant, binding, body⟩ :: rest =>
    let bound :=
      match binding with
      | some v => " " ++ v.text
      | none => ""
    listHeading depth s!"case #{variant}{bound}" ++ listingBelow (depth + 2) body
      ++ variantArmListing depth rest

end

def listing (code : List Instr) : String := listingBelow 0 code

end Monomorph
