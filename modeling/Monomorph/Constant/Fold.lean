import Monomorph.Constant.Basic
import Monomorph.Constant.Remainder
import Monomorph.Symbol.Table
import Monomorph.Symbol.Variant

/-!
# Folding expressions into constants

Literals and what is built from them, arithmetic, and references to other constant module variables are
evaluated before the program runs. `Expr.fold` folds one expression, given the values of module
variables; `Evaluator.folding` follows references through the variants kept of the variables.
-/

namespace Monomorph

/-- Why a program cannot be lowered. -/
inductive LowerError where
  /-- An expression has no value before the program runs. -/
  | notConstant (what : String) (span : Span)
  /-- A reference was never bound to a variant. -/
  | unresolved (path : Option Path) (span : Span)
  deriving DecidableEq, Inhabited, Repr

namespace LowerError

def span : LowerError → Span
  | notConstant _ span | unresolved _ span => span

def message : LowerError → String
  | notConstant what _ => s!"{what} cannot be evaluated at compile time"
  | unresolved (some path) _ => s!"reference to `{path.text}` was never resolved"
  | unresolved none _ => "unresolved reference"

end LowerError

/-! ### Operations -/

namespace Constant

/-- The most values a folded repeating array may hold, those nested in its elements included. -/
def repeatLimit : Nat := Nat.pow 2 20

def ofLiteral : Literal → Constant
  | .unit => unit
  | .boolean value => boolean value
  | .integer value => integer value
  | .float value => float value
  | .string value => string value

/-- A quotient or remainder of integers, unless the divisor is zero or the quotient too large. -/
def divide? (op : Int64 → Int64 → Int64) (a b : Int64) : Option Constant :=
  if b = 0 ∨ (a = Int64.minValue ∧ b = -1) then none else some (integer (op a b))

/-- An operation on two integers; sums and products wrap around. -/
def integerOp (op : BinaryOp) (a b : Int64) : Option Constant :=
  match op with
  | .add => some (integer (a + b))
  | .subtract => some (integer (a - b))
  | .multiply => some (integer (a * b))
  | .divide => divide? (· / ·) a b
  | .modulo => divide? (· % ·) a b
  | .less => some (boolean (a < b))
  | .greater => some (boolean (b < a))
  | .lessEqual => some (boolean (a ≤ b))
  | .greaterEqual => some (boolean (b ≤ a))
  | _ => none

def floatOp (op : BinaryOp) (a b : Float) : Option Constant :=
  match op with
  | .add => some (float (a + b))
  | .subtract => some (float (a - b))
  | .multiply => some (float (a * b))
  | .divide => some (float (a / b))
  | .modulo => some (float (Decimal.remainder a b))
  | .less => some (boolean (a < b))
  | .greater => some (boolean (b < a))
  | .lessEqual => some (boolean (a ≤ b))
  | .greaterEqual => some (boolean (b ≤ a))
  | _ => none

def booleanOp (op : BinaryOp) (a b : Bool) : Option Constant :=
  match op with
  | .and => some (boolean (a && b))
  | .or => some (boolean (a || b))
  | _ => none

/-- A binary operation on constants, if it has a value. -/
def binaryOp (op : BinaryOp) (a b : Constant) : Option Constant :=
  match op with
  | .equal => some (boolean (a == b))
  | .notEqual => some (boolean (!(a == b)))
  | op =>
    match a, b with
    | integer a, integer b => integerOp op a b
    | float a, float b => floatOp op a b
    | boolean a, boolean b => booleanOp op a b
    | _, _ => none

/-- A unary operation on a constant, if it has a value; negation wraps around. -/
def unaryOp (op : UnaryOp) (a : Constant) : Option Constant :=
  match op, a with
  | .not, boolean a => some (boolean (!a))
  | .negate, integer a => some (integer (-a))
  | .negate, float a => some (float (-a))
  | _, _ => none

/-- An array of one value repeated, or what is wrong with its size. -/
def repeated (value size : Constant) : Except String Constant :=
  match size with
  | integer n =>
    if n < 0 then .error "a negative array size"
    else if n.toInt.toNat * value.count > repeatLimit then .error "an array this large"
    else .ok (array (List.replicate n.toInt.toNat value))
  | _ => .error "this array size"

end Constant

/-! ### Expressions -/

/-- The value of a variant of a module variable, for a reference at a place. -/
abbrev GlobalValues := Path → Nat → Span → Except LowerError Constant

/-- Give an operation's value, or the error that an expression has none. -/
def constantOr (what : String) (span : Span) : Option Constant → Except LowerError Constant
  | some c => .ok c
  | none => .error (.notConstant what span)

namespace Expr

variable {α : Type}

mutual

/-- Fold an expression into a constant. -/
def fold (globals : GlobalValues) : Expr α → Except LowerError Constant
  | .literal _ value => .ok (.ofLiteral value)
  | .array _ elements => do
    let elements ← foldAll globals elements
    return .array elements
  | .repeated m value size => do
    let value ← fold globals value
    let size ← fold globals size
    match Constant.repeated value size with
    | .ok c => return c
    | .error what => throw (.notConstant what m.span)
  | .object _ members => do
    let members ← foldNamed globals members
    return .object members
  | .variant _ tag payload => do
    let payload ← fold globals payload
    return .variant tag payload
  | .constant _ value => fold globals value
  | .unary m op operand => do
    let operand ← fold globals operand
    constantOr "this operation" m.span (Constant.unaryOp op operand)
  | .binary m op left right => do
    let left ← fold globals left
    let right ← fold globals right
    constantOr "this operation" m.span (Constant.binaryOp op left right)
  | .global m (.resolved path number) => globals path number m.span
  | .global m (.pending _) => .error (.unresolved none m.span)
  | .closure m _ _ _ | .procedure m _ => .error (.notConstant "a closure" m.span)
  | .invoke m _ _ | .call m _ _ | .method m _ _ _ => .error (.notConstant "a call" m.span)
  | e => .error (.notConstant "this expression" e.span)

def foldAll (globals : GlobalValues) : List (Expr α) → Except LowerError (List Constant)
  | [] => .ok []
  | e :: rest => do
    let c ← fold globals e
    let cs ← foldAll globals rest
    return c :: cs

def foldNamed (globals : GlobalValues) :
    List (String × Expr α) → Except LowerError (List (String × Constant))
  | [] => .ok []
  | (key, e) :: rest => do
    let c ← fold globals e
    let cs ← foldNamed globals rest
    return (key, c) :: cs

end

end Expr

/-! ### Module variables -/

/-- The number of a module variable and one of its variants. -/
def globalVariant? (symbols : SymbolTable) (variants : VariantStore) (path : Path)
    (variant : Nat) : Option (Nat × Variant) := do
  let id ← symbols.lookup path
  let symbol ← symbols.get? id
  guard (!symbol.declaration.isProcedure)
  let v ← (variants.ofSymbol id)[variant]?
  return (id, v)

/-- The value of a module variable's variant. While a variable is folded it is not available, so a
variable that refers to itself has no value. -/
def foldGlobal (symbols : SymbolTable) (variants : VariantStore) (available : List (Nat × Nat)) :
    GlobalValues := fun path variant span =>
  match globalVariant? symbols variants path variant with
  | none => .error (.unresolved (some path) span)
  | some (id, v) =>
    match v.body with
    | some (value :: _) =>
      if _h : (id, variant) ∈ available then
        value.fold (foldGlobal symbols variants (available.erase (id, variant)))
      else .error (.unresolved (some path) span)
    | _ => .error (.notConstant "an external variable" span)
termination_by available.length
decreasing_by
  have hpos := List.length_pos_of_mem _h
  rw [List.length_erase_of_mem _h]
  omega

/-- Gives expressions their values before the program runs. -/
abbrev Evaluator := Expr TypeVar → Except LowerError Constant

namespace Evaluator

/-- Fold expressions, following module variables. -/
def folding (symbols : SymbolTable) (variants : VariantStore) : Evaluator :=
  let all := variants.toList.zipIdx.flatMap fun (vs, id) => (List.range vs.length).map (id, ·)
  fun e => e.fold (foldGlobal symbols variants all)

def refusing : Evaluator := fun e => .error (.notConstant "anything" e.span)

end Evaluator
end Monomorph
