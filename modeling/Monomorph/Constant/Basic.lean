import Monomorph.Decimal.Layout
import Monomorph.Text.Json
import Monomorph.Text.Quoted

/-!
# Constants

The values known before the program runs, and the table that holds those which the lowered code refers
to. A value without mutable storage is stored once, however often it is added; an array or an object gets
an entry of its own every time, because two places that hold it must not share its storage.
-/

namespace Monomorph

/-- A value known before the program runs. -/
inductive Constant where
  | unit
  | boolean (value : Bool)
  | integer (value : Int64)
  | float (value : Float)
  | string (value : String)
  | array (elements : List Constant)
  | object (members : List (String × Constant))
  | variant (name : String) (payload : Constant)
  deriving Inhabited

namespace Constant

/-! ### Equality -/

mutual

/-- Whether two constants are equal. Floats are compared as numbers, so that the zeros are equal and
nothing equals what is not a number; objects are compared member by member in order. -/
def eq : Constant → Constant → Bool
  | unit, unit => true
  | boolean a, boolean b => a == b
  | integer a, integer b => a == b
  | float a, float b => a == b
  | string a, string b => a == b
  | array as, array bs => eqElements as bs
  | object as, object bs => eqMembers as bs
  | variant m a, variant n b => m == n && eq a b
  | _, _ => false

/-- Whether two lists of constants are equal. -/
def eqElements : List Constant → List Constant → Bool
  | [], [] => true
  | a :: as, b :: bs => eq a b && eqElements as bs
  | _, _ => false

/-- Whether two lists of named constants are equal. -/
def eqMembers : List (String × Constant) → List (String × Constant) → Bool
  | [], [] => true
  | (m, a) :: as, (n, b) :: bs => m == n && (eq a b && eqMembers as bs)
  | _, _ => false

end

instance : BEq Constant := ⟨eq⟩

/-! ### Size and sharing -/

/-- Whether a value has no mutable storage anywhere inside. -/
def isImmutable : Constant → Bool
  | array _ | object _ => false
  | variant _ payload => payload.isImmutable
  | _ => true

mutual

/-- `n` and the number of values in a constant, itself included. -/
def countFrom (n : Nat) : Constant → Nat
  | array elements => countElements (n + 1) elements
  | object members => countMembers (n + 1) members
  | variant _ payload => countFrom (n + 1) payload
  | _ => n + 1

/-- `n` and the number of values in a list of constants. -/
def countElements (n : Nat) : List Constant → Nat
  | [] => n
  | e :: rest => countElements (countFrom n e) rest

/-- `n` and the number of values in a list of named constants. -/
def countMembers (n : Nat) : List (String × Constant) → Nat
  | [] => n
  | (_, e) :: rest => countMembers (countFrom n e) rest

end

/-- Number of values in a constant, itself included. -/
def count (c : Constant) : Nat := c.countFrom 0

/-! ### Text -/

mutual

def write (out : String) : Constant → String
  | unit => out ++ "unit"
  | boolean value => out ++ (if value then "true" else "false")
  | integer value => out ++ toString value.toInt
  | float value => out ++ Decimal.Layout.listing.text value
  | string value => out ++ Text.quoted value
  | array [] => out ++ "[]"
  | array (e :: rest) => writeElements (write (out ++ "[") e) rest ++ "]"
  | object [] => out ++ "\x7b  \x7d"
  | object ((name, e) :: rest) =>
    writeMembers (write (out ++ "\x7b " ++ name ++ " = ") e) rest ++ " \x7d"
  | variant name payload => write (out ++ "#" ++ name ++ " ") payload

/-- Append the elements after the first. -/
def writeElements (out : String) : List Constant → String
  | [] => out
  | e :: rest => writeElements (write (out ++ ", ") e) rest

/-- Append the members after the first. -/
def writeMembers (out : String) : List (String × Constant) → String
  | [] => out
  | (name, e) :: rest => writeMembers (write (out ++ ", " ++ name ++ " = ") e) rest

end

def text (c : Constant) : String := c.write ""

mutual

/-- The encoded form of a constant. A float that is no number has none and becomes null. -/
def encode : Constant → Json
  | unit => .string "Unit"
  | boolean value => .tagged "Boolean" (.bool value)
  | integer value => .tagged "Integer" (.number (toString value.toInt))
  | float value => .tagged "Float" (.number (Decimal.Layout.encoded.text value))
  | string value => .tagged "String" (.string value)
  | array elements => .tagged "Array" (.array (encodeElements elements))
  | object members => .tagged "Object" (.array (encodeMembers members))
  | variant name payload =>
    .tagged "Variant" (.object [("name", .string name), ("value", encode payload)])

def encodeElements : List Constant → List Json
  | [] => []
  | e :: rest => encode e :: encodeElements rest

/-- The encoded forms of named constants: pairs of name and value. -/
def encodeMembers : List (String × Constant) → List Json
  | [] => []
  | (name, e) :: rest => .array [.string name, encode e] :: encodeMembers rest

end

end Constant

/-- The constants that lowered code refers to, each at the position that is its number. -/
structure ConstantTable where
  values : Array Constant
  deriving Inhabited

namespace ConstantTable

def empty : ConstantTable := ⟨#[]⟩

def size (t : ConstantTable) : Nat := t.values.size

def get? (t : ConstantTable) (id : Nat) : Option Constant := t.values[id]?

/-- Add a constant and give its number: that of an equal entry if there is one and the constant is
immutable, else that of a new entry. -/
def add (t : ConstantTable) (c : Constant) : Nat × ConstantTable :=
  let known := if c.isImmutable then t.values.findIdx? fun other => other == c else none
  match known with
  | some id => (id, t)
  | none => (t.size, ⟨t.values.push c⟩)

def encode (t : ConstantTable) : Json :=
  .object [("values", .array (Constant.encodeElements t.values.toList))]

end ConstantTable
end Monomorph
