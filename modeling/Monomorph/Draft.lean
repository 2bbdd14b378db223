import Monomorph.Scope
import Monomorph.Symbol.Table

/-!
# Drafts

A draft is a symbol's body before anything is solved: every expression is annotated with a type variable,
the constraints on these variables are listed in the order the body is read, and every reference to
another symbol is recorded as a *usage* to be solved later. Drafting also checks that locals have a value
when they are read and that nothing immutable is assigned to.

`Draft.ofProcedure` and `Draft.ofVariable` draft a procedure and the value of a module variable.
-/

namespace Monomorph

/-- How a procedure is used. -/
inductive UsageKind where
  /-- It is called; the path is as written and may name several procedures. -/
  | call
  /-- It is used as a value; the path is a full one. -/
  | reference
  deriving DecidableEq, Inhabited

/-- A use of a procedure. -/
structure ProcedureUsage where
  path : Path
  kind : UsageKind
  args : List TypeVar
  argSpans : List Span
  returns : TypeVar
  span : Span
  deriving Inhabited

/-- A use of a module variable, by its full path. -/
structure VariableUsage where
  path : Path
  type : TypeVar
  span : Span
  deriving Inhabited

/-- The uses of other symbols, at the positions that pending targets name. -/
structure Usages where
  procedures : Array ProcedureUsage
  globals : Array VariableUsage
  deriving Inhabited

/-- A symbol's body, annotated and not solved. -/
structure Draft where
  args : List TypeVar
  returns : TypeVar
  constraints : List Constraint
  usages : Usages
  body : List (Expr TypeVar)

/-- The state of drafting. -/
structure Drafting where
  graph : TypeGraph
  scope : Scope
  constraints : Array Constraint
  usages : Usages

/-- Drafting; a failure keeps the variables allocated so far. -/
abbrev DraftM := EStateM TypeError Drafting

/-- Where a body is drafted: the symbols it may refer to and the symbol it belongs to. -/
structure DraftContext where
  symbols : SymbolTable
  user : Path

namespace DraftM

/-! ### Steps -/

/-- Allocate a variable of a given type. -/
def allocate (t : Ty) : DraftM TypeVar :=
  modifyGet fun s => let (v, graph) := s.graph.alloc t; (v, { s with graph })

/-- Allocate a variable about which nothing is known. -/
def fresh : DraftM TypeVar := allocate Ty.any

/-- Allocate such a variable for each element of a list. -/
def freshFor {α : Type} : List α → DraftM (List TypeVar)
  | [] => pure []
  | _ :: rest => do
    let v ← fresh
    let vs ← freshFor rest
    return v :: vs

def emit (target : TypeVar) (span : Span) (demand : Demand) : DraftM Unit :=
  modify fun s => { s with constraints := s.constraints.push ⟨target, span, demand⟩ }

/-- A new variable that is demanded to be of a base kind. -/
def typed (base : BaseKind) (span : Span) : DraftM TypeVar := do
  let v ← fresh
  emit v span (.isBase base none)
  return v

def unit (span : Span) : DraftM TypeVar := allocate ⟨.unit, some span⟩

def modifyScope (f : Scope → Scope) : DraftM Unit :=
  modify fun s => { s with scope := f s.scope }

/-- The type given back by the body around the present point. -/
def returnType : DraftM TypeVar := return ((← get).scope.head?.map Frame.returns).getD default

/-- Draft inside a block of its own and give the block as it is at its end. -/
def inBlock {α : Type} (block : Block) (x : DraftM α) : DraftM (α × Block) := do
  modifyScope (Scope.enterBlock block)
  let a ← x
  let (block, scope) := (← get).scope.exitBlock
  modifyScope fun _ => scope
  return (a, block)

/-- Draft inside a frame of its own and give the names it captures. A body that may reach its end
gives back unit. -/
def inFrame {α : Type} (frame : Frame) (span : Span) (x : DraftM α) : DraftM (α × NameSet) := do
  modifyScope fun scope => frame :: scope
  let a ← x
  let scope := (← get).scope
  modifyScope List.tail
  let frame := scope.headD frame
  unless frame.alwaysReturns do
    emit frame.returns span
      (.isBase .unit (some "because the body does not always return a value"))
  return (a, frame.captures)

def isolated {α : Type} (x : DraftM α) : DraftM α := do
  let outer := (← get).scope
  let returns ← fresh
  modifyScope fun _ => [.ofParams [] returns]
  let a ← x
  modifyScope fun _ => outer
  return a

/-! ### References -/

/-- Record a use of a procedure and give its number. -/
def useProcedure (usage : ProcedureUsage) : DraftM Nat :=
  modifyGet fun s =>
    (s.usages.procedures.size,
      { s with usages.procedures := s.usages.procedures.push usage })

/-- Record a use of a module variable and give its number. -/
def useVariable (usage : VariableUsage) : DraftM Nat :=
  modifyGet fun s =>
    (s.usages.globals.size,
      { s with usages.globals := s.usages.globals.push usage })

def accessLocal (name : String) (span : Span) (assigned : Bool) : DraftM (Option TypeVar) := do
  match (← get).scope.access name span assigned with
  | .error e => throw e
  | .ok none => return none
  | .ok (some (type, scope)) => do
    modifyScope fun _ => scope
    return some type

/-- Whether a call through a path calls a procedure: unless a local or a module variable has the name. -/
def callsProcedure (context : DraftContext) (path : Path) : DraftM Bool := do
  let scope := (← get).scope
  let isLocal := path.localName?.any fun name => (scope.typeOf? name).isSome
  return !isLocal &&
    match (context.symbols.resolve path context.user).bind context.symbols.get? with
    | some symbol => symbol.declaration.isProcedure
    | none => true

/-- A call of a procedure with drafted arguments. -/
def invocation (path : Path) (args : List (Expr TypeVar)) (span : Span) :
    DraftM (Expr TypeVar) := do
  let returns ← fresh
  let usage ← useProcedure ⟨path, .call, args.map Expr.note, args.map Expr.span, returns, span⟩
  return .invoke ⟨span, returns⟩ (.pending usage) args

/-- A name that is no local's, read or, if `assigned`, given a value: a module variable, which is read only,
or a procedure used as a value. -/
def accessSymbol (context : DraftContext) (path : Path) (span : Span) (assigned : Bool) :
    DraftM (Expr TypeVar) :=
  match (context.symbols.resolve path context.user).bind context.symbols.get? with
  | none => throw (.single span (.unknownSymbol path))
  | some symbol =>
    match symbol.declaration.params? with
    | none => do
      if assigned then
        throw (.single span (.invalidAssignment symbol.path.text .moduleVariable))
      let type ← fresh
      let usage ← useVariable ⟨symbol.path, type, span⟩
      return .global ⟨span, type⟩ (.pending usage)
    | some params => do
      if assigned then
        throw (.single span (.invalidAssignment symbol.path.text .procedure))
      let args ← freshFor params
      let returns ← fresh
      let type ← fresh
      emit type span (.hasSignature args returns)
      let usage ← useProcedure
        ⟨symbol.path, .reference, args, params.map fun _ => span, returns, span⟩
      return .procedure ⟨span, type⟩ (.pending usage)

/-- A name that is read or, if `assigned`, given a value: the nearest local, else a module symbol. -/
def access (context : DraftContext) (path : Path) (span : Span) (assigned : Bool) :
    DraftM (Expr TypeVar) :=
  match path.localName? with
  | some name => do
    match ← accessLocal name span assigned with
    | some type => return .localVar ⟨span, type⟩ name
    | none => accessSymbol context path span assigned
  | none => accessSymbol context path span assigned

/-- The path of a target that is written into the tree; only a solved one has a path. -/
def targetPath (target : Target) (span : Span) : DraftM Path :=
  match target with
  | .resolved path _ => pure path
  | .pending _ => throw (.single span (.unknownSymbol ⟨[]⟩))

/-! ### Expressions -/

/-- The reason shown with the demand on a condition. -/
def conditionReason : String := "since it's used as a condition"

/-- The reason shown with the demand on the size of an array. -/
def sizeReason : String := "since it's used as the size for an array"

/-- The reason shown with the demand on an index. -/
def indexReason : String := "since it's used to index into an array"

def literalBase : Literal → BaseKind
  | .unit => .unit
  | .boolean _ => .boolean
  | .integer _ => .integer
  | .float _ => .float
  | .string _ => .string

/-- Demand that every element of an array literal has the array's element type. -/
def unifyElements (element : TypeVar) : List (Expr TypeVar) → DraftM Unit
  | [] => pure ()
  | e :: rest => do
    emit element e.span (.unify e.note)
    unifyElements element rest

/-- The type of a binary operation, with the demands on its operands. -/
def binaryType (op : BinaryOp) (left right : Expr TypeVar) (span : Span) : DraftM TypeVar := do
  if op.isArithmetic then
    emit left.note span .isNumeric
    emit left.note span (.unify right.note)
    return left.note
  else if op.isComparison then
    emit left.note span .isNumeric
    emit left.note span (.unify right.note)
    typed .boolean span
  else if op.isEquality then
    emit left.note span (.unify right.note)
    typed .boolean span
  else
    emit left.note left.span (.isBase .boolean none)
    emit left.note span (.unify right.note)
    return left.note

variable {α : Type}

mutual

def expr (context : DraftContext) : Expr α → DraftM (Expr TypeVar)
  | .literal m value => return .literal ⟨m.span, ← typed (literalBase value) m.span⟩ value
  | .name m path => access context path m.span false
  | .localVar m name => access context (.single name) m.span false
  | .global m target => do access context (← targetPath target m.span) m.span false
  | .procedure m target => do access context (← targetPath target m.span) m.span false
  | .invoke m target args => do
    let path ← targetPath target m.span
    invocation path (← exprs context args) m.span
  | .call m callee args => do
    let called? ←
      match callee with
      | .name _ path => do
        let direct ← callsProcedure context path
        pure (if direct then some path else none)
      | _ => pure none
    match called? with
    | some path => invocation path (← exprs context args) m.span
    | none => do
      let callee ← expr context callee
      let args ← exprs context args
      let returns ← fresh
      emit callee.note m.span (.hasSignature (args.map Expr.note) returns)
      return .call ⟨m.span, returns⟩ callee args
  | .method m receiver name args => do
    let receiver ← expr context receiver
    let args ← exprs context args
    let called ← fresh
    emit receiver.note m.span (.hasMember name called)
    let returns ← fresh
    emit called m.span (.hasSignature (receiver.note :: args.map Expr.note) returns)
    return .method ⟨m.span, returns⟩ receiver name args
  | .closure m params body _ => do
    let args ← freshFor params
    let returns ← fresh
    let (body, captured) ←
      inFrame (.ofParams (params.zip args) returns) m.span (exprs context body)
    let scope := (← get).scope
    let captures := Row.ofList (captured.names.filterMap fun name =>
      (scope.typeOf? name).map fun type => (name, type))
    let type ← fresh
    emit type m.span (.hasSignature args returns)
    return .closure ⟨m.span, type⟩ params body (some ⟨args, returns, captures⟩)
  | .define m name isMutable value => do
    let value ← expr context value
    modifyScope (Scope.modifyBlock fun b => b.declare name ⟨value.note, true, isMutable⟩)
    return .define ⟨m.span, value.note⟩ name isMutable value
  | .declare m name isMutable => do
    let type ← fresh
    modifyScope (Scope.modifyBlock fun b => b.declare name ⟨type, false, isMutable⟩)
    return .declare ⟨m.span, type⟩ name isMutable
  | .assign m target value => do
    let value ← expr context value
    let target ←
      match target with
      | .name n path => access context path n.span true
      | .localVar n name => access context (.single name) n.span true
      | .member .. => expr context target
      | .element .. => expr context target
      | _ => throw (.single target.span (.invalidAssignment "this expression" .notAssignable))
    emit target.note m.span (.unify value.note)
    return .assign ⟨m.span, ← unit m.span⟩ target value
  | .giveBack m value => do
    let value ← expr context value
    emit (← returnType) value.span (.unify value.note)
    modifyScope (Scope.modifyBlock fun b => { b with alwaysReturns := true })
    return .giveBack ⟨m.span, ← unit m.span⟩ value
  | .object m members => do
    let type ← fresh
    let members ← namedExprs context type members
    emit type m.span (.limitMembers (.ofNames (members.map (·.1))))
    return .object ⟨m.span, type⟩ members
  | .array m elements => do
    let type ← fresh
    let element ← fresh
    emit type m.span (.hasElement element)
    let elements ← exprs context elements
    unifyElements element elements
    return .array ⟨m.span, type⟩ elements
  | .repeated m value size => do
    let value ← expr context value
    let size ← expr context size
    let type ← fresh
    emit type m.span (.hasElement value.note)
    emit size.note size.span (.isBase .integer (some sizeReason))
    return .repeated ⟨m.span, type⟩ value size
  | .member m object name => do
    let object ← expr context object
    let type ← fresh
    emit object.note m.span (.hasMember name type)
    return .member ⟨m.span, type⟩ object name
  | .element m array index => do
    let array ← expr context array
    let index ← expr context index
    let type ← fresh
    emit array.note m.span (.hasElement type)
    emit index.note index.span (.isBase .integer (some indexReason))
    return .element ⟨m.span, type⟩ array index
  | .binary m op left right => do
    let left ← expr context left
    let right ← expr context right
    return .binary ⟨m.span, ← binaryType op left right m.span⟩ op left right
  | .unary m op operand => do
    let operand ← expr context operand
    match op with
    | .negate => emit operand.note m.span .isNumeric
    | .not => emit operand.note m.span (.isBase .boolean none)
    return .unary ⟨m.span, operand.note⟩ op operand
  | .variant m name payload => do
    let payload ← expr context payload
    let type ← fresh
    emit type m.span (.hasVariant name payload.note)
    return .variant ⟨m.span, type⟩ name payload
  | .unwrap m value name => do
    let value ← expr context value
    let type ← fresh
    emit value.note m.span (.hasVariant name type)
    emit (← returnType) m.span (.variantsOfExcept value.note name)
    return .unwrap ⟨m.span, type⟩ value name
  | .constant m value => do
    let value ← isolated (expr context value)
    return .constant ⟨m.span, value.note⟩ value
  | .ifElse m condition yes no => do
    let condition ← expr context condition
    emit condition.note condition.span (.isBase .boolean (some conditionReason))
    let (yes, yesBlock) ← inBlock .empty (exprs context yes)
    let (no, noBlock) ← inBlock .empty (exprs context no)
    modifyScope (Scope.joinArms [yesBlock, noBlock])
    return .ifElse ⟨m.span, ← unit m.span⟩ condition yes no
  | .matchValue m value arms otherwise => do
    let value ← expr context value
    let values ← armValues context value.note arms
    let bodies ← armBodies context arms
    let (otherwise, lastBlock) ← inBlock .empty (exprs context otherwise)
    modifyScope (Scope.joinArms (bodies.map (·.2) ++ [lastBlock]))
    return .matchValue ⟨m.span, ← unit m.span⟩ value (values.zip (bodies.map (·.1))) otherwise
  | .matchVariant m value arms (some otherwise) => do
    let value ← expr context value
    let arms ← variantArms context value.note m.span arms
    let (otherwise, lastBlock) ← inBlock .empty (exprs context otherwise)
    modifyScope (Scope.joinArms (arms.map (·.2) ++ [lastBlock]))
    return .matchVariant ⟨m.span, ← unit m.span⟩ value (arms.map (·.1)) (some otherwise)
  | .matchVariant m value arms none => do
    let value ← expr context value
    let arms ← variantArms context value.note m.span arms
    emit value.note m.span (.limitVariants (.ofNames (arms.map (·.1.variant))))
    modifyScope (Scope.joinArms (arms.map (·.2)))
    return .matchVariant ⟨m.span, ← unit m.span⟩ value (arms.map (·.1)) none

def exprs (context : DraftContext) : List (Expr α) → DraftM (List (Expr TypeVar))
  | [] => pure []
  | e :: rest => do
    let e ← expr context e
    let rest ← exprs context rest
    return e :: rest

/-- Draft the members of an object of the given type. -/
def namedExprs (context : DraftContext) (object : TypeVar) :
    List (String × Expr α) → DraftM (List (String × Expr TypeVar))
  | [] => pure []
  | (name, e) :: rest => do
    let e ← expr context e
    emit object e.span (.hasMember name e.note)
    let rest ← namedExprs context object rest
    return (name, e) :: rest

/-- Draft the constants that a value of the given type is matched against. -/
def armValues (context : DraftContext) (value : TypeVar) :
    List (Expr α × List (Expr α)) → DraftM (List (Expr TypeVar))
  | [] => pure []
  | (e, _) :: rest => do
    let e ← isolated (expr context e)
    emit value e.span (.unify e.note)
    let rest ← armValues context value rest
    return e :: rest

/-- Draft the bodies of the arms of a match against constants, each in its block. -/
def armBodies (context : DraftContext) :
    List (Expr α × List (Expr α)) → DraftM (List (List (Expr TypeVar) × Block))
  | [] => pure []
  | (_, body) :: rest => do
    let arm ← inBlock .empty (exprs context body)
    let rest ← armBodies context rest
    return arm :: rest

/-- Draft the arms of a match on variants, each in its block with its binding declared. -/
def variantArms (context : DraftContext) (value : TypeVar) (span : Span) :
    List (VariantArm α (List (Expr α))) →
      DraftM (List (VariantArm TypeVar (List (Expr TypeVar)) × Block))
  | [] => pure []
  | ⟨variant, binding, _, body⟩ :: rest => do
    let payload ← fresh
    emit value span (.hasVariant variant payload)
    let block :=
      match binding with
      | some name => Block.empty.declare name ⟨payload, true, false⟩
      | none => .empty
    let (body, block) ← inBlock block (exprs context body)
    let rest ← variantArms context value span rest
    return (⟨variant, binding, payload, body⟩, block) :: rest

end

end DraftM

namespace Draft

/-- Draft with a graph and give the draft with the graph as it is afterwards. -/
def run (x : DraftM (List TypeVar × TypeVar × List (Expr TypeVar))) (g : TypeGraph) :
    Except TypeError Draft × TypeGraph :=
  match x ⟨g, [], #[], ⟨#[], #[]⟩⟩ with
  | .ok (args, returns, body) s => (.ok ⟨args, returns, s.constraints.toList, s.usages, body⟩, s.graph)
  | .error e s => (.error e, s.graph)

/-- Draft a procedure that is declared at `span`. -/
def ofProcedure (context : DraftContext) (params : List String) (body : List (Expr Unit))
    (span : Span) : TypeGraph → Except TypeError Draft × TypeGraph :=
  run do
    let args ← DraftM.freshFor params
    let returns ← DraftM.fresh
    let (body, _) ←
      DraftM.inFrame (.ofParams (params.zip args) returns) span (DraftM.exprs context body)
    return (args, returns, body)

/-- Draft the value of a module variable. -/
def ofVariable (context : DraftContext) (value : Expr Unit) :
    TypeGraph → Except TypeError Draft × TypeGraph :=
  run do
    let value ← DraftM.isolated (DraftM.expr context value)
    return ([], value.note, [value])

end Draft
end Monomorph
