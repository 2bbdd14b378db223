import Monomorph.Row
import Monomorph.Source.Span

/-!
# Kinds of types

A kind is one level of a type: its constructor, with type variables in the place of the types inside it.
Besides the concrete kinds there are placeholder categories, which stand for "any kind with this use so
far" until a later use decides. A kind together with the span that last justified it is a `Ty`.
-/

namespace Monomorph

/-- A type variable: a node of the type graph, by its number. -/
structure TypeVar where
  index : Nat
  deriving DecidableEq, Hashable, Inhabited, Repr

/-- One level of a type. -/
inductive Kind where
  /-- Nothing is known. -/
  | any
  /-- An integer or a float. -/
  | numeric
  /-- An array of unknown elements. -/
  | indexed
  /-- A value with an address: an array, an object or a closure. -/
  | referenced
  /-- A value with a length: a string or an array. -/
  | sequence
  | unit
  | boolean
  | integer
  | float
  | string
  | array (element : TypeVar)
  /-- An object; an open one may still gain members. A layout order, once given, is fixed. -/
  | object (members : Row TypeVar) (isOpen : Bool) (order : Option (List String))
  /-- A tagged union; an open one may still gain variants. -/
  | union (variants : Row TypeVar) (isOpen : Bool)
  | closure (args : List TypeVar) (returns : TypeVar)
  deriving DecidableEq, Inhabited

/-- A kind with the span of the expression that last justified it. -/
structure Ty where
  kind : Kind
  origin : Option Span
  deriving DecidableEq, Inhabited

/-- The type of a variable about which nothing is known. -/
def Ty.any : Ty := ⟨.any, none⟩

namespace Kind

/-! ### Categories -/

/-- Whether a later use may still decide between several kinds. -/
def isPlaceholder : Kind → Bool
  | any | numeric | indexed | referenced | sequence => true
  | _ => false

def isNumeric : Kind → Bool
  | numeric | integer | float => true
  | _ => false

def isIndexed : Kind → Bool
  | indexed | array _ => true
  | _ => false

def isSequence : Kind → Bool
  | sequence | string | indexed | array _ => true
  | _ => false

def isReferenced : Kind → Bool
  | referenced | indexed | array _ | object .. | closure .. => true
  | _ => false

/-! ### Contained variables -/

/-- The type variables directly inside a kind: members and variants in the order of their names,
arguments before the result. -/
def children : Kind → List TypeVar
  | array element => [element]
  | object members _ _ => members.values
  | union variants _ => variants.values
  | closure args returns => args ++ [returns]
  | _ => []

/-- The same kind with every variable inside it replaced. -/
def mapVars (f : TypeVar → TypeVar) : Kind → Kind
  | array element => array (f element)
  | object members isOpen order => object (members.map f) isOpen order
  | union variants isOpen => union (variants.map f) isOpen
  | closure args returns => closure (args.map f) (f returns)
  | kind => kind

/-! ### Words -/

/-- What a value of this kind is called in reports. -/
def describe : Kind → String
  | any => "a value of any type"
  | numeric => "a number"
  | indexed => "an indexable value"
  | referenced => "a reference value"
  | sequence => "a string or an array"
  | unit => "the unit value"
  | boolean => "a boolean"
  | integer => "an integer"
  | float => "a float"
  | string => "a string"
  | array _ => "an array"
  | object .. => "an object"
  | union .. => "a union"
  | closure .. => "a closure"

/-- The kind's name, without the types inside it. -/
def name : Kind → String
  | any => "any"
  | numeric => "numeric"
  | indexed => "indexed"
  | referenced => "referenced"
  | sequence => "sequence"
  | unit => "unit"
  | boolean => "bool"
  | integer => "int"
  | float => "float"
  | string => "str"
  | array _ => "array"
  | object .. => "object"
  | union .. => "union"
  | closure args _ => s!"closure/{args.length}"

end Kind

/-- The kinds that can be demanded by name, without saying what is inside. -/
inductive BaseKind where
  | unit | boolean | integer | float | string | object | union
  deriving DecidableEq, Inhabited

namespace BaseKind

/-- The kind a placeholder becomes: objects and unions start open and empty. -/
def instantiate : BaseKind → Kind
  | unit => .unit
  | boolean => .boolean
  | integer => .integer
  | float => .float
  | string => .string
  | object => .object .empty true none
  | union => .union .empty true

/-- Whether a kind already is of the demanded kind. -/
def accepts : BaseKind → Kind → Bool
  | unit, .unit | boolean, .boolean | integer, .integer | float, .float | string, .string
  | object, .object .. | union, .union .. => true
  | _, _ => false

/-- Whether a placeholder may become the demanded kind. -/
def refines : BaseKind → Kind → Bool
  | _, .any => true
  | integer, .numeric | float, .numeric => true
  | object, .referenced => true
  | string, .sequence => true
  | _, _ => false

end BaseKind
end Monomorph
