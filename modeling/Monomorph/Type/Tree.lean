import Monomorph.Type.Graph.Fold

/-!
# Types as finite trees

What a code generator needs to know about a type: a finite tree in which a type inside itself is a
reference to the enclosing level. Placeholders that nothing decided become the least demanding type of
their category.
-/

namespace Monomorph

/-- A type as a finite tree. -/
inductive TypeTree where
  /-- Never decided; any representation will do. -/
  | unknown
  | unit
  | boolean
  | integer
  | float
  | string
  | array (element : TypeTree)
  /-- Members in the order they are laid out. -/
  | object (members : List (String × TypeTree))
  | union (variants : List (String × TypeTree))
  | closure (args : List TypeTree) (returns : TypeTree)
  /-- The enclosing type so many levels up, the nearest being `1`. -/
  | recursive (depth : Nat)
  deriving Inhabited, Repr

/-- The tree of a kind, given the trees of the types inside it. An object is laid out in its fixed order
if it has one, else in the order of its member names. -/
def Kind.tree (inner : TypeVar → TypeTree) : Kind → TypeTree
  | .any | .referenced | .sequence => .unknown
  | .numeric | .integer => .integer
  | .indexed => .array .unknown
  | .unit => .unit
  | .boolean => .boolean
  | .float => .float
  | .string => .string
  | .array element => .array (inner element)
  | .object members _ order =>
    .object ((order.getD members.names).filterMap fun name =>
      (members.get? name).map fun v => (name, inner v))
  | .union variants _ => .union (variants.entries.map fun e => (e.1, inner e.2))
  | .closure args returns => .closure (args.map inner) (inner returns)

def TypeGraph.tree (g : TypeGraph) (v : TypeVar) : TypeTree :=
  g.fold .recursive (fun kind inner => kind.tree inner) v

end Monomorph
