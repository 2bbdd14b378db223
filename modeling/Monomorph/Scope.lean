import Monomorph.Row
import Monomorph.TypeError
import Monomorph.Type.Kind

/-!
# Scopes

What is known about the locals at one point of a body. A scope is a stack of *frames*, one per procedure
or closure; a frame is a stack of *blocks*. Innermost frames and blocks come first.

A block remembers which locals declared outside it are definitely given a value inside it. When arms
meet again, `Scope.joinArms` keeps what every arm that goes on gives a value to. `Scope.access` checks a
read or an assignment, notes what is initialized by it and which frames capture the local.
-/

namespace Monomorph

/-- A local of a block. -/
structure Local where
  type : TypeVar
  /-- Whether it has a value since its declaration or an assignment in its own block. -/
  initialized : Bool
  isMutable : Bool
  deriving DecidableEq, Inhabited

/-- One lexical block. -/
structure Block where
  locals : Row Local
  /-- Locals declared outside that this block definitely gives a value. -/
  initializes : NameSet
  /-- Whether every way through the block gives back a value before its end. -/
  alwaysReturns : Bool
  deriving Inhabited

/-- The blocks of one procedure or closure body. -/
structure Frame where
  /-- Type of the value given back. -/
  returns : TypeVar
  /-- Locals of enclosing frames that are used inside. -/
  captures : NameSet
  blocks : List Block
  deriving Inhabited

/-- The frames around one point of a body. -/
abbrev Scope := List Frame

/-- A block in which nothing is declared yet. -/
def Block.empty : Block := ⟨.empty, .empty, false⟩

/-- Declare a local, replacing one of the same name in the same block. -/
def Block.declare (b : Block) (name : String) (l : Local) : Block :=
  { b with locals := b.locals.insert name l }

/-- Note that a name has a value from now on: the block's own local, else an outer one. -/
def Block.initialize (b : Block) (name : String) : Block :=
  match b.locals.get? name with
  | some l => { b with locals := b.locals.insert name { l with initialized := true } }
  | none => { b with initializes := b.initializes.add name }

/-- The frame of a body with its parameters, which all have a value. -/
def Frame.ofParams (params : List (String × TypeVar)) (returns : TypeVar) : Frame :=
  let locals := params.map fun p => (p.1, (⟨p.2, true, false⟩ : Local))
  ⟨returns, .empty, [{ Block.empty with locals := Row.ofList locals }]⟩

/-- Whether every way through the body gives back a value: whether its outermost block does. -/
def Frame.alwaysReturns (f : Frame) : Bool :=
  f.blocks.getLast?.any Block.alwaysReturns

namespace Scope

/-! ### Blocks -/

def modifyBlock (f : Block → Block) : Scope → Scope
  | ⟨returns, captures, block :: blocks⟩ :: frames => ⟨returns, captures, f block :: blocks⟩ :: frames
  | scope => scope

def enterBlock (b : Block) : Scope → Scope
  | frame :: frames => { frame with blocks := b :: frame.blocks } :: frames
  | [] => []

def exitBlock : Scope → Block × Scope
  | ⟨returns, captures, block :: blocks⟩ :: frames => (block, ⟨returns, captures, blocks⟩ :: frames)
  | scope => (.empty, scope)

/-- The names that every block which does not always give back a value initializes. -/
def commonInitializes (arms : List Block) : NameSet :=
  match arms.filter fun arm => !arm.alwaysReturns with
  | [] => .empty
  | arm :: rest => arm.initializes.filter fun name _ => rest.all fun b => b.initializes.contains name

/-- Go on after a branch whose arms ran in these blocks. -/
def joinArms (arms : List Block) : Scope → Scope :=
  modifyBlock fun block =>
    let block := (commonInitializes arms).names.foldl Block.initialize block
    { block with alwaysReturns := block.alwaysReturns || arms.all Block.alwaysReturns }

/-! ### Locals -/

/-- Every block with the number of frames and the number of blocks of its frame around the present
point, nearest first. -/
def blocks (scope : Scope) : List (Nat × Nat × Block) :=
  scope.zipIdx.flatMap fun (frame, i) => frame.blocks.zipIdx.map fun (block, j) => (i, j, block)

/-- A local found from inside. -/
structure Sighting where
  /-- Number of frames between. -/
  frame : Nat
  /-- Number of blocks of its frame between. -/
  block : Nat
  binding : Local
  /-- Whether it definitely has a value at the present point. -/
  initialized : Bool

/-- Look for the nearest local of a name. It has a value if it is initialized itself or by one of the
blocks on the way to it. -/
def sight (scope : Scope) (name : String) : Option Sighting :=
  go false scope.blocks
where
  go (initialized : Bool) : List (Nat × Nat × Block) → Option Sighting
    | [] => none
    | (i, j, block) :: rest =>
      let initialized := initialized || block.initializes.contains name
      match block.locals.get? name with
      | some l => some ⟨i, j, l, initialized || l.initialized⟩
      | none => go initialized rest

/-- The type of the nearest local of a name. -/
def typeOf? (scope : Scope) (name : String) : Option TypeVar :=
  (scope.sight name).map fun s => s.binding.type

/-- Read a local or, if `assigned`, give it a value. A read needs a value; an assignment needs that there
is none yet or that the local is mutable. The answer is the local's type and the scope after the access,
or nothing if no local has the name. -/
def access (scope : Scope) (name : String) (span : Span) (assigned : Bool) :
    Except TypeError (Option (TypeVar × Scope)) :=
  match scope.sight name with
  | none => .ok none
  | some s =>
    if !assigned && !s.initialized then .error (.single span (.uninitialized name))
    else if assigned && s.initialized && !s.binding.isMutable then
      .error (.single span (.invalidAssignment name .immutable))
    else
      let here := s.frame == 0 && s.block == 0
      let scope :=
        if assigned && (here || !s.initialized) then scope.modifyBlock fun b => b.initialize name
        else scope
      let scope := scope.mapIdx fun i f =>
        if i < s.frame then { f with captures := f.captures.add name } else f
      .ok (some (s.binding.type, scope))

end Scope
end Monomorph
