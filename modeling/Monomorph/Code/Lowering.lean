import Monomorph.Code.Instr
import Monomorph.Constant.Fold
import Monomorph.Type.Graph

/-!
# Lowering

Solved bodies become code. Locals live in slots: declaring a local gives its name a slot, assigning to
it makes the next version of the slot. Each arm of a branch starts from the names visible before it; after
the branch, `LowerM.join` gives every name that some arm changed a version that stands for all arms.

Locals of enclosing bodies are not visible inside a closure; they are read and written by name.

The state may have more to it than lowering needs, so that lowering can be watched (`LowerState`).
-/

namespace Monomorph

/-- What lowering reads. -/
structure LowerContext where
  symbols : SymbolTable
  variants : VariantStore
  graph : TypeGraph
  evaluate : Evaluator

/-- The state of lowering. -/
structure Lowering where
  constants : ConstantTable
  /-- The constants of module variables used so far, by path and variant. -/
  hoisted : List ((Path × Nat) × Nat)
  /-- The slots of the body around the present point. -/
  slots : Array Slot
  /-- The code of the block around the present point. -/
  code : Array Instr
  /-- The version of every visible name. -/
  names : Row Version

/-- Lowering on a state of some type. -/
abbrev LowerOn (σ : Type) := EStateM LowerError σ

abbrev LowerM := LowerOn Lowering

/-- A state to lower on. It has its own way of finding and declaring locals, and of doing arms and closures. -/
class LowerState (σ : Type) where
  /-- Do an operation on the state of lowering. -/
  lift {α : Type} : LowerM α → LowerOn σ α
  /-- The version of a local that is read, assigned or captured, if its name is visible. -/
  find : String → LowerOn σ (Option Version)
  declare : String → Version → LowerOn σ Unit
  inArm {α : Type} : LowerOn σ α → LowerOn σ α
  /-- Do the body of a closure with these captures. -/
  inClosure {α : Type} : List String → LowerOn σ α → LowerOn σ α

instance : LowerState Lowering where
  lift x := x
  find name := return (← get).names.get? name
  declare name v := modify fun s => { s with names := s.names.insert name v }
  inArm x := x
  inClosure _ x := x

namespace LowerM

open LowerState

variable {σ : Type} [LowerState σ]

/-! ### Steps -/

def present : LowerOn σ Lowering := lift get

/-- Append an instruction to the present block. -/
def emit (i : Instr) : LowerOn σ Unit :=
  lift (modify fun s => { s with code := s.code.push i })

def newSlot (type : TypeVar) (isArgument : Bool) : LowerOn σ Version :=
  lift (modifyGet fun s =>
    (⟨s.slots.size, 0⟩, { s with slots := s.slots.push ⟨type, isArgument, false, 1⟩ }))

def nextVersion (v : Version) : LowerOn σ Version :=
  lift (modifyGet fun s =>
    (⟨v.slot, (s.slots[v.slot]?.map Slot.versions).getD 0⟩,
      { s with slots := s.slots.modify v.slot fun slot =>
          { slot with versions := slot.versions + 1 } }))

def markCaptured (v : Version) : LowerOn σ Unit :=
  lift (modify fun s =>
    { s with slots := s.slots.modify v.slot fun slot => { slot with captured := true } })

/-- Append an operation into a new slot. -/
def emitInto (type : TypeVar) (op : Op) (args : List Version) : LowerOn σ Version := do
  let dest ← newSlot type false
  emit (.op op args (some dest))
  return dest

/-- Let a name stand for another version. -/
def bind (name : String) (v : Version) : LowerOn σ Unit :=
  lift (modify fun s => { s with names := s.names.insert name v })

def addConstant (c : Constant) : LowerOn σ Nat :=
  lift (modifyGet fun s => let (id, constants) := s.constants.add c; (id, { s with constants }))

/-- Note the constant of a module variable. -/
def hoist (path : Path) (variant id : Nat) : LowerOn σ Unit :=
  lift (modify fun s => { s with hoisted := ((path, variant), id) :: s.hoisted })

/-- Evaluate an expression now and add its value to the table. -/
def evaluateConstant (context : LowerContext) (e : Expr TypeVar) : LowerOn σ Nat :=
  match context.evaluate e with
  | .ok c => addConstant c
  | .error e => throw e

/-- Evaluate the constants of a match. -/
def evaluateArms (context : LowerContext) :
    List (Expr TypeVar × List (Expr TypeVar)) → LowerOn σ (List Nat)
  | [] => pure []
  | (e, _) :: rest => do
    let id ← evaluateConstant context e
    return id :: (← evaluateArms context rest)

/-! ### Blocks and bodies -/

/-- Lower in a block of its own, which starts from the names visible now. Give its code and the names as
they are at its end; the names visible outside stay as they are. -/
def inBlock {α : Type} (x : LowerOn σ α) : LowerOn σ (α × List Instr × Row Version) := do
  let outer ← present
  lift (modify fun s => { s with code := #[] })
  let a ← x
  let inner ← present
  lift (modify fun s => { s with code := outer.code, names := outer.names })
  return (a, inner.code.toList, inner.names)

/-- Give every parameter an argument slot. -/
def bindParams : List (String × TypeVar) → LowerOn σ Unit
  | [] => pure ()
  | (name, type) :: rest => do
    declare name (← newSlot type true)
    bindParams rest

/-- Lower a body with slots of its own, in which only the parameters are visible. -/
def inBody (params : List String) (args : List TypeVar) (x : LowerOn σ Unit) :
    LowerOn σ (Array Slot × List Instr) := do
  let outer ← present
  lift (modify fun s => { s with slots := #[], code := #[], names := .empty })
  bindParams (params.zip args)
  x
  let inner ← present
  lift (modify fun s => { s with slots := outer.slots, code := outer.code, names := outer.names })
  return (inner.slots, inner.code.toList)

/-- The version for a name's own slot when it is declared with a value: the value's version, unless
another visible name lives in its slot. -/
def own (type : TypeVar) (value : Version) : LowerOn σ Version := do
  let taken := (← present).names.values.any fun v => v.slot == value.slot
  if taken then emitInto type .copy [value] else return value

/-! ### Joins -/

/-- The distinct versions that the arms of a branch end with for a name that stood for `earlier` so far.
An arm in which the name lives in another slot only declared a local of that name. -/
def endVersions (name : String) (earlier : Version) (arms : List (Row Version)) : List Version :=
  arms.foldl (fun versions arm =>
    let v := ((arm.get? name).filter fun v => v.slot == earlier.slot).getD earlier
    if v ∈ versions then versions else versions ++ [v]) []

/-- Merge one name after a branch: by a new version if the arms end with several, else by the one. -/
def joinName (arms : List (Row Version)) (name : String) (earlier : Version) : LowerOn σ Unit :=
  match endVersions name earlier arms with
  | [] => pure ()
  | [only] => if only = earlier then pure () else bind name only
  | versions => do
    let merged ← nextVersion earlier
    emit (.op .phi versions (some merged))
    bind name merged

def joinNames (arms : List (Row Version)) : List (String × Version) → LowerOn σ Unit
  | [] => pure ()
  | (name, earlier) :: rest => do
    joinName arms name earlier
    joinNames arms rest

/-- Merge the names visible at the ends of the arms of a branch. -/
def join (arms : List (Row Version)) : LowerOn σ Unit := do
  joinNames arms (← present).names.entries

/-! ### Parts of expressions -/

/-- The path and the variant of a target. -/
def resolved (target : Target) (span : Span) : LowerOn σ (Path × Nat) :=
  match target with
  | .resolved path variant => pure (path, variant)
  | .pending _ => throw (.unresolved none span)

/-- The path of a target, if it has one. -/
def targetPath? : Target → Option Path
  | .resolved path _ => some path
  | .pending _ => none

/-- Use an expression as a value: one that has none is unit. -/
def asValue (type : TypeVar) (x : LowerOn σ (Option Version)) : LowerOn σ Version := do
  match ← x with
  | some v => return v
  | none => emitInto type (.load .unit) []

/-- The versions of captured locals: those visible here as they are, others read by name. -/
def captureAll : List (String × TypeVar) → LowerOn σ (List (String × Version))
  | [] => pure []
  | (name, type) :: rest => do
    let v ←
      match ← find name with
      | some v => do markCaptured v; pure v
      | none => emitInto type (.readCapture name) []
    return (name, v) :: (← captureAll rest)

/-- The type of a member of an object. -/
def memberType (context : LowerContext) (object : TypeVar) (name : String) (span : Span) :
    LowerOn σ TypeVar :=
  match context.graph.kind object with
  | .object members _ _ =>
    match members.get? name with
    | some v => pure v
    | none => throw (.unresolved none span)
  | _ => throw (.unresolved none span)

/-- Load a module variable: from outside if it is external, else its constant. -/
def loadGlobal (context : LowerContext) (type : TypeVar) (path : Path) (variant : Nat)
    (span : Span) : LowerOn σ Version := do
  match globalVariant? context.symbols context.variants path variant with
  | none => throw (.unresolved (some path) span)
  | some (_, v) =>
    match v.body with
    | some (value :: _) =>
      match (← present).hoisted.lookup (path, variant) with
      | some id => emitInto type (.loadConstant id) []
      | none => do
        let id ← evaluateConstant context value
        hoist path variant id
        emitInto type (.loadConstant id) []
    | _ => emitInto type (.loadExternal path) []

/-- `and` and `or` as a branch on the left value: the right operand runs in the last arm. `stop` is the
left value that decides alone. -/
def shortCircuit (type : TypeVar) (stop : Bool) (left right : LowerOn σ Version) : LowerOn σ Version := do
  let left ← left
  let result ← newSlot type false
  let stopId ← addConstant (.boolean stop)
  let (right, rightCode, _) ← inBlock right
  let fromLeft ← nextVersion result
  emit (.branchValue left [(stopId, [.op .copy [left] (some fromLeft)])]
    (rightCode ++ [.op .copy [right] (some result)]))
  let merged ← nextVersion result
  emit (.op .phi [fromLeft, result] (some merged))
  return merged

/-- The payload of one variant of a value; any other variant is given back as it is. -/
def unwrapVariant (type : TypeVar) (value : Version) (name : String) : LowerOn σ Version := do
  let payload ← newSlot type false
  emit (.branchVariant value [⟨name, some payload, []⟩] [.op .giveBack [value] none])
  return payload

/-! ### Expressions -/

mutual

/-- Lower an expression. A statement has no value of its own. -/
def expr (context : LowerContext) : Expr TypeVar → LowerOn σ (Option Version)
  | .literal m value => return some (← emitInto m.note (.load value) [])
  | .name m path => throw (.unresolved (some path) m.span)
  | .localVar m name => do
    match ← find name with
    | some v => return some v
    | none => return some (← emitInto m.note (.readCapture name) [])
  | .global m target => do
    let (path, variant) ← resolved target m.span
    return some (← loadGlobal context m.note path variant m.span)
  | .procedure m target => throw (.unresolved (targetPath? target) m.span)
  | .invoke m target args => do
    let (path, variant) ← resolved target m.span
    let args ← values context args
    return some (← emitInto m.note (.callProcedure path variant) args)
  | .call m callee args => do
    let callee ← asValue callee.note (expr context callee)
    let args ← values context args
    return some (← emitInto m.note .callClosure (callee :: args))
  | .method m receiver name args => do
    let object ← asValue receiver.note (expr context receiver)
    let type ← memberType context receiver.note name m.span
    let called ← emitInto type (.readMember name) [object]
    let args ← values context args
    return some (← emitInto m.note .callClosure (called :: object :: args))
  | .closure m params body (some info) => do
    let captures ← captureAll info.captures.entries
    let (slots, code) ← inClosure info.captures.names (inBody params info.args (exprs context body))
    let dest ← newSlot m.note false
    emit (.closure info.args info.returns captures slots code dest)
    return some dest
  | .closure m _ _ none => throw (.unresolved none m.span)
  | .define m name _ value => do
    let v ← asValue value.note (expr context value)
    declare name (← own m.note v)
    return none
  | .declare m name _ => do
    declare name (← newSlot m.note false)
    return none
  | .assign _ target value => do
    let v ← asValue value.note (expr context value)
    match target with
    | .localVar _ name =>
      match ← find name with
      | some current => do
        let next ← nextVersion current
        emit (.op .copy [v] (some next))
        bind name next
      | none => emit (.op (.writeCapture name) [v] none)
    | .member _ object name => do
      let o ← asValue object.note (expr context object)
      emit (.op (.writeMember name) [o, v] none)
    | .element _ array index => do
      let a ← asValue array.note (expr context array)
      let i ← asValue index.note (expr context index)
      emit (.op .writeElement [a, i, v] none)
    | .global t (.resolved path _) => throw (.unresolved (some path) t.span)
    | .name t path => throw (.unresolved (some path) t.span)
    | other => throw (.unresolved none other.span)
    return none
  | .giveBack _ value => do
    let v ← asValue value.note (expr context value)
    emit (.op .giveBack [v] none)
    return none
  | .object m members => do
    let args ← namedValues context members
    return some (← emitInto m.note (.loadObject (members.map (·.1))) args)
  | .array m elements => do
    let args ← values context elements
    return some (← emitInto m.note .loadArray args)
  | .repeated m value size => do
    let v ← asValue value.note (expr context value)
    let n ← asValue size.note (expr context size)
    return some (← emitInto m.note .loadRepeated [v, n])
  | .member m object name => do
    let o ← asValue object.note (expr context object)
    return some (← emitInto m.note (.readMember name) [o])
  | .element m array index => do
    let a ← asValue array.note (expr context array)
    let i ← asValue index.note (expr context index)
    return some (← emitInto m.note .readElement [a, i])
  | .binary m .and left right => return some (←
      shortCircuit m.note false (asValue left.note (expr context left))
        (asValue right.note (expr context right)))
  | .binary m .or left right => return some (←
      shortCircuit m.note true (asValue left.note (expr context left))
        (asValue right.note (expr context right)))
  | .binary m op left right => do
    let l ← asValue left.note (expr context left)
    let r ← asValue right.note (expr context right)
    return some (← emitInto m.note (.binary op) [l, r])
  | .unary m op operand => do
    let v ← asValue operand.note (expr context operand)
    return some (← emitInto m.note (.unary op) [v])
  | .variant m name payload => do
    let v ← asValue payload.note (expr context payload)
    return some (← emitInto m.note (.loadVariant name) [v])
  | .unwrap m value name => do
    let v ← asValue value.note (expr context value)
    return some (← unwrapVariant m.note v name)
  | .constant m value => do
    let id ← evaluateConstant context value
    return some (← emitInto m.note (.loadConstant id) [])
  | .ifElse _ condition yes no => do
    let v ← asValue condition.note (expr context condition)
    let id ← addConstant (.boolean true)
    let (_, yesCode, yesNames) ← inArm (inBlock (exprs context yes))
    let (_, noCode, noNames) ← inArm (inBlock (exprs context no))
    emit (.branchValue v [(id, yesCode)] noCode)
    join [yesNames, noNames]
    return none
  | .matchValue _ value arms otherwise => do
    let v ← asValue value.note (expr context value)
    let ids ← evaluateArms context arms
    let bodies ← valueArms context arms
    let (_, lastCode, lastNames) ← inArm (inBlock (exprs context otherwise))
    emit (.branchValue v (ids.zip (bodies.map (·.1))) lastCode)
    join (bodies.map (·.2) ++ [lastNames])
    return none
  | .matchVariant _ value arms (some otherwise) => do
    let v ← asValue value.note (expr context value)
    let arms ← variantArms context arms
    let (_, lastCode, lastNames) ← inArm (inBlock (exprs context otherwise))
    emit (.branchVariant v (arms.map (·.1)) lastCode)
    join (arms.map (·.2) ++ [lastNames])
    return none
  | .matchVariant _ value arms none => do
    let v ← asValue value.note (expr context value)
    let arms ← variantArms context arms
    emit (.branchVariant v (arms.map (·.1)) [])
    join (arms.map (·.2))
    return none

def exprs (context : LowerContext) : List (Expr TypeVar) → LowerOn σ Unit
  | [] => pure ()
  | e :: rest => do
    let _ ← expr context e
    exprs context rest

def values (context : LowerContext) : List (Expr TypeVar) → LowerOn σ (List Version)
  | [] => pure []
  | e :: rest => do
    let v ← asValue e.note (expr context e)
    return v :: (← values context rest)

/-- Lower named expressions used as values. -/
def namedValues (context : LowerContext) : List (String × Expr TypeVar) → LowerOn σ (List Version)
  | [] => pure []
  | (_, e) :: rest => do
    let v ← asValue e.note (expr context e)
    return v :: (← namedValues context rest)

/-- Lower the bodies of a match against constants. -/
def valueArms (context : LowerContext) :
    List (Expr TypeVar × List (Expr TypeVar)) → LowerOn σ (List (List Instr × Row Version))
  | [] => pure []
  | (_, body) :: rest => do
    let (_, code, names) ← inArm (inBlock (exprs context body))
    return (code, names) :: (← valueArms context rest)

/-- Lower the arms of a match on variants. -/
def variantArms (context : LowerContext) :
    List (VariantArm TypeVar (List (Expr TypeVar))) →
      LowerOn σ (List (CodeArm (List Instr) × Row Version))
  | [] => pure []
  | ⟨variant, some name, payload, body⟩ :: rest => do
    let v ← newSlot payload false
    let (_, code, names) ← inArm (inBlock do declare name v; exprs context body)
    return (⟨variant, some v, code⟩, names) :: (← variantArms context rest)
  | ⟨variant, none, _, body⟩ :: rest => do
    let (_, code, names) ← inArm (inBlock (exprs context body))
    return (⟨variant, none, code⟩, names) :: (← variantArms context rest)

end

/-! ### Programs -/

/-- Lower the variants of a procedure, numbered from `i`, that have a body. -/
def procedureVariants (context : LowerContext) (path : Path) (params : List String) :
    (i : Nat) → List Variant → LowerOn σ (List Procedure)
  | _, [] => pure []
  | i, v :: rest =>
    match v.body with
    | none => procedureVariants context path params (i + 1) rest
    | some body => do
      let (slots, code) ← inBody params v.args (exprs context body)
      let others ← procedureVariants context path params (i + 1) rest
      return ⟨path, i, v.args, v.returns, slots, code⟩ :: others

/-- Lower the symbols of a program, numbered from `id`. -/
def procedures (context : LowerContext) :
    (id : Nat) → List Symbol → LowerOn σ (List Procedure)
  | _, [] => pure []
  | id, s :: rest => do
    let own ←
      match s.declaration.params? with
      | some params =>
        procedureVariants context s.path params 0 (context.variants.ofSymbol id)
      | none => pure []
    return own ++ (← procedures context (id + 1) rest)

end LowerM

/-- Lower every variant that has a body, in the order of symbols and variants. -/
def lower (context : LowerContext) : Except LowerError Module :=
  match LowerM.procedures context 0 context.symbols.symbols.toList
      (⟨.empty, [], #[], #[], .empty⟩ : Lowering) with
  | .ok procedures s => .ok ⟨procedures, s.constants⟩
  | .error e _ => .error e

end Monomorph
