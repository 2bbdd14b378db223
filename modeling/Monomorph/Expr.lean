import Monomorph.Path
import Monomorph.Row
import Monomorph.Source.Span

/-!
# Expressions

The tree of a procedure body or of a module variable's value. It is generic over a note that every
expression carries: trees as they are read carry none (`Unit`), annotated trees carry the type variable
of the expression's value.

In a tree as it is read, names are `Expr.name`; annotating replaces each by a local, a module variable or
a procedure. References to module symbols first point at a recorded *usage* and, once solved, at a
*variant* of a symbol.
-/

namespace Monomorph

/-- Operators on two values. -/
inductive BinaryOp where
  | add | subtract | multiply | divide | modulo
  | less | greater | lessEqual | greaterEqual
  | equal | notEqual
  | and | or
  deriving DecidableEq, Inhabited, Repr

namespace BinaryOp

/-- Operators that take two numbers to a number. -/
def isArithmetic : BinaryOp → Bool
  | add | subtract | multiply | divide | modulo => true
  | _ => false

/-- Operators that compare two numbers. -/
def isComparison : BinaryOp → Bool
  | less | greater | lessEqual | greaterEqual => true
  | _ => false

/-- Operators that compare any two values. -/
def isEquality : BinaryOp → Bool
  | equal | notEqual => true
  | _ => false

end BinaryOp

/-- Operators on one value. -/
inductive UnaryOp where
  | negate | not
  deriving DecidableEq, Inhabited, Repr

/-- A value written out. -/
inductive Literal where
  | unit
  | boolean (value : Bool)
  | integer (value : Int64)
  | float (value : Float)
  | string (value : String)
  deriving Inhabited, Repr

/-- Where a reference to a module symbol points. -/
inductive Target where
  /-- The usage with this number, not yet solved. -/
  | pending (usage : Nat)
  /-- A solved variant of a symbol. -/
  | resolved (path : Path) (variant : Nat)
  deriving DecidableEq, Inhabited, Repr

/-- The span of an expression and the note it carries. -/
structure Mark (α : Type) where
  span : Span
  note : α
  deriving DecidableEq, Inhabited, Repr

/-- The notes of a closure's arguments and result, and of the enclosing locals it uses. -/
structure ClosureInfo (α : Type) where
  args : List α
  returns : α
  captures : Row α

/-- One arm of a match on the variants of a union, with the note of the variant's payload. -/
structure VariantArm (α β : Type) where
  variant : String
  binding : Option String
  payload : α
  body : β

/-- An expression; statements are expressions of unit value. -/
inductive Expr (α : Type) where
  | literal (mark : Mark α) (value : Literal)
  /-- A name or path as written. -/
  | name (mark : Mark α) (path : Path)
  | localVar (mark : Mark α) (name : String)
  /-- A module variable. -/
  | global (mark : Mark α) (target : Target)
  /-- A procedure used as a value. -/
  | procedure (mark : Mark α) (target : Target)
  /-- A call of a procedure. -/
  | invoke (mark : Mark α) (target : Target) (args : List (Expr α))
  /-- A call of whatever the callee's value is. -/
  | call (mark : Mark α) (callee : Expr α) (args : List (Expr α))
  /-- A call of a member, which gets the receiver as its first argument. -/
  | method (mark : Mark α) (receiver : Expr α) (member : String) (args : List (Expr α))
  | closure (mark : Mark α) (params : List String) (body : List (Expr α))
      (info : Option (ClosureInfo α))
  | define (mark : Mark α) (name : String) (isMutable : Bool) (value : Expr α)
  | declare (mark : Mark α) (name : String) (isMutable : Bool)
  | assign (mark : Mark α) (target value : Expr α)
  | giveBack (mark : Mark α) (value : Expr α)
  | object (mark : Mark α) (members : List (String × Expr α))
  | array (mark : Mark α) (elements : List (Expr α))
  /-- An array of one value repeated. -/
  | repeated (mark : Mark α) (value size : Expr α)
  | member (mark : Mark α) (object : Expr α) (name : String)
  | element (mark : Mark α) (array index : Expr α)
  | binary (mark : Mark α) (op : BinaryOp) (left right : Expr α)
  | unary (mark : Mark α) (op : UnaryOp) (operand : Expr α)
  | variant (mark : Mark α) (name : String) (payload : Expr α)
  /-- The payload of one variant; any other variant is given back by the enclosing body. -/
  | unwrap (mark : Mark α) (value : Expr α) (variant : String)
  /-- An expression that is evaluated once, before the program runs. -/
  | constant (mark : Mark α) (value : Expr α)
  | ifElse (mark : Mark α) (condition : Expr α) (yes no : List (Expr α))
  /-- A match against constant values. -/
  | matchValue (mark : Mark α) (value : Expr α) (arms : List (Expr α × List (Expr α)))
      (otherwise : List (Expr α))
  /-- A match on the variants of a union; without a last arm it lists all of them. -/
  | matchVariant (mark : Mark α) (value : Expr α) (arms : List (VariantArm α (List (Expr α))))
      (otherwise : Option (List (Expr α)))

namespace Expr

variable {α : Type}

/-- The span and the note of an expression. -/
def mark : Expr α → Mark α
  | literal m _ | name m _ | localVar m _ | global m _ | procedure m _ | invoke m _ _ | call m _ _
  | method m _ _ _ | closure m _ _ _ | define m _ _ _ | declare m _ _ | assign m _ _
  | giveBack m _ | object m _ | array m _ | repeated m _ _ | member m _ _ | element m _ _
  | binary m _ _ _ | unary m _ _ | variant m _ _ | unwrap m _ _ | constant m _ | ifElse m _ _ _
  | matchValue m _ _ _ | matchVariant m _ _ _ => m

def span (e : Expr α) : Span := e.mark.span

def note (e : Expr α) : α := e.mark.note

/-- The same expression with another mark. -/
def withMark (m : Mark α) : Expr α → Expr α
  | literal _ value => literal m value
  | name _ path => name m path
  | localVar _ n => localVar m n
  | global _ target => global m target
  | procedure _ target => procedure m target
  | invoke _ target args => invoke m target args
  | call _ callee args => call m callee args
  | method _ receiver n args => method m receiver n args
  | closure _ params body info => closure m params body info
  | define _ n isMutable value => define m n isMutable value
  | declare _ n isMutable => declare m n isMutable
  | assign _ target value => assign m target value
  | giveBack _ value => giveBack m value
  | object _ members => object m members
  | array _ elements => array m elements
  | repeated _ value size => repeated m value size
  | member _ of n => member m of n
  | element _ of index => element m of index
  | binary _ op left right => binary m op left right
  | unary _ op operand => unary m op operand
  | variant _ n payload => variant m n payload
  | unwrap _ value n => unwrap m value n
  | constant _ value => constant m value
  | ifElse _ condition yes no => ifElse m condition yes no
  | matchValue _ value arms otherwise => matchValue m value arms otherwise
  | matchVariant _ value arms otherwise => matchVariant m value arms otherwise

end Expr
end Monomorph
