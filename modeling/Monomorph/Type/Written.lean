import Monomorph.Constraint

/-!
# Written types

A type as a term, such as the declared type of an external variable. `WrittenType.build` allocates its
graph: inner types in the order they are written and before the type around them; a recursive type
allocates its own variable first.
-/

namespace Monomorph

/-- A type as a term. -/
inductive WrittenType where
  /-- A kind without types inside. -/
  | plain (kind : Kind)
  | array (element : WrittenType)
  | object (members : List (String × WrittenType)) (isOpen : Bool) (order : Option (List String))
  | union (variants : List (String × WrittenType)) (isOpen : Bool)
  | closure (args : List WrittenType) (returns : WrittenType)
  /-- A variable of the graph. -/
  | existing (v : TypeVar)
  /-- The type that the name stands for inside. -/
  | recursive (name : String) (body : WrittenType)
  /-- The enclosing recursive type of this name. -/
  | self (name : String)
  deriving Inhabited

namespace WrittenType

/-- The variables of the enclosing recursive types, the innermost first. -/
abbrev Enclosing := List (String × TypeVar)

mutual

/-- The kind of a written type, with everything inside it allocated. -/
def shape (origin : Option Span) (enclosing : Enclosing) : WrittenType → TypeM Kind
  | plain kind => pure kind
  | array element => return .array (← build origin enclosing element)
  | object members isOpen order =>
    return .object (Row.ofList (← buildNamed origin enclosing members)) isOpen order
  | union variants isOpen =>
    return .union (Row.ofList (← buildNamed origin enclosing variants)) isOpen
  | closure args returns => do
    let args ← buildAll origin enclosing args
    return .closure args (← build origin enclosing returns)
  | existing v => return (← get).kind v
  | recursive name body => do
    let v ← fresh
    let kind ← shape origin ((name, v) :: enclosing) body
    settle v kind origin
    return kind
  | self name =>
    match enclosing.lookup name with
    | some v => return (← get).kind v
    | none => pure .any

def build (origin : Option Span) (enclosing : Enclosing) : WrittenType → TypeM TypeVar
  | existing v => pure v
  | recursive name body => do
    let v ← fresh
    settle v (← shape origin ((name, v) :: enclosing) body) origin
    return v
  | self name =>
    match enclosing.lookup name with
    | some v => pure v
    | none => fresh
  | plain kind => allocate ⟨kind, origin⟩
  | array element => do
    let e ← build origin enclosing element
    allocate ⟨.array e, origin⟩
  | object members isOpen order => do
    let row := Row.ofList (← buildNamed origin enclosing members)
    allocate ⟨.object row isOpen order, origin⟩
  | union variants isOpen => do
    let row := Row.ofList (← buildNamed origin enclosing variants)
    allocate ⟨.union row isOpen, origin⟩
  | closure args returns => do
    let args ← buildAll origin enclosing args
    let r ← build origin enclosing returns
    allocate ⟨.closure args r, origin⟩

def buildNamed (origin : Option Span) (enclosing : Enclosing) :
    List (String × WrittenType) → TypeM (List (String × TypeVar))
  | [] => pure []
  | (name, t) :: rest => do
    let v ← build origin enclosing t
    let vs ← buildNamed origin enclosing rest
    return (name, v) :: vs

def buildAll (origin : Option Span) (enclosing : Enclosing) :
    List WrittenType → TypeM (List TypeVar)
  | [] => pure []
  | t :: rest => do
    let v ← build origin enclosing t
    let vs ← buildAll origin enclosing rest
    return v :: vs

end

end WrittenType
end Monomorph
