import Monomorph.Draft
import Monomorph.Symbol.Variant

/-!
# Binding the usages of a draft

Once the constraints of a draft are applied, every usage in its body is replaced by the variant it is
solved to. Which variant that is comes from a `Binder`; this module walks the body, in the order in which
usages have to be solved, and puts the answers into the tree. A procedure used as a value becomes a
closure that forwards its arguments.

The walk needs little of the monad that the answers are given in (`MonadBinding`).
-/

namespace Monomorph

/-- The type graph and the variants kept so far. -/
structure Workspace where
  graph : TypeGraph
  variants : VariantStore
  deriving Inhabited

/-- Solving; a failure keeps the changes made so far. -/
abbrev SolveM := EStateM TypeError Workspace

/-- Run a computation on the type graph. -/
def SolveM.onGraph {α : Type} (x : TypeM α) : SolveM α
  | ⟨graph, variants⟩ =>
    match x graph with
    | .ok a graph => .ok a ⟨graph, variants⟩
    | .error e graph => .error e ⟨graph, variants⟩

/-- What binding does besides asking for answers. -/
class MonadBinding (M : Type → Type) where
  /-- A new variable of unit type. -/
  unit : Span → M TypeVar
  /-- Fail at a reference that no usage stands for. -/
  unbound {α : Type} : Span → M α

/-- The error of a reference that no usage stands for. -/
def TypeError.unbound (span : Span) : TypeError := .single span (.unknownSymbol ⟨[]⟩)

instance : MonadBinding SolveM where
  unit span := SolveM.onGraph (allocate ⟨.unit, some span⟩)
  unbound span := throw (.unbound span)

/-- Answers for the usages of a draft. -/
structure Binder (M : Type → Type) where
  procedure : ProcedureUsage → M Target
  moduleVariable : VariableUsage → M Target
  /-- The parameters of a procedure by its full path. -/
  params : Path → List String
  usages : Usages

namespace Binder

variable {M : Type → Type} [Monad M] [MonadBinding M]

/-- Solve the procedure usage that a target points at. -/
def bindProcedure (b : Binder M) (span : Span) : Target → M Target
  | .pending i =>
    match b.usages.procedures[i]? with
    | some usage => b.procedure usage
    | none => MonadBinding.unbound span
  | target => pure target

/-- Solve the variable usage that a target points at. -/
def bindVariable (b : Binder M) (span : Span) : Target → M Target
  | .pending i =>
    match b.usages.globals[i]? with
    | some usage => b.moduleVariable usage
    | none => MonadBinding.unbound span
  | target => pure target

/-- The closure `|x, y| return p(x, y)` for a procedure `p` used as a value. -/
def forward (b : Binder M) (m : Mark TypeVar) : Target → M (Expr TypeVar)
  | .pending i =>
    match b.usages.procedures[i]? with
    | some usage => do
      let target ← b.procedure usage
      let params := b.params usage.path
      let args := (params.zip usage.args).map fun p => Expr.localVar ⟨m.span, p.2⟩ p.1
      let unit ← MonadBinding.unit m.span
      return .closure m params
        [.giveBack ⟨m.span, unit⟩ (.invoke ⟨m.span, usage.returns⟩ target args)]
        (some ⟨usage.args, usage.returns, .empty⟩)
    | none => MonadBinding.unbound m.span
  | target => pure (.procedure m target)

mutual

def expr (b : Binder M) : Expr TypeVar → M (Expr TypeVar)
  | .literal m value => pure (.literal m value)
  | .name m path => pure (.name m path)
  | .localVar m name => pure (.localVar m name)
  | .global m target => return .global m (← b.bindVariable m.span target)
  | .procedure m target => b.forward m target
  | .invoke m target args => do
    let target ← b.bindProcedure m.span target
    return .invoke m target (← exprs b args)
  | .call m callee args => do
    let callee ← expr b callee
    return .call m callee (← exprs b args)
  | .method m receiver name args => do
    let receiver ← expr b receiver
    return .method m receiver name (← exprs b args)
  | .closure m params body info => return .closure m params (← exprs b body) info
  | .define m name isMutable value => return .define m name isMutable (← expr b value)
  | .declare m name isMutable => pure (.declare m name isMutable)
  | .assign m target value => do
    let target ← expr b target
    return .assign m target (← expr b value)
  | .giveBack m value => return .giveBack m (← expr b value)
  | .object m members => return .object m (← namedExprs b members)
  | .array m elements => return .array m (← exprs b elements)
  | .repeated m value size => do
    let value ← expr b value
    return .repeated m value (← expr b size)
  | .member m object name => return .member m (← expr b object) name
  | .element m array index => do
    let array ← expr b array
    return .element m array (← expr b index)
  | .binary m op left right => do
    let left ← expr b left
    return .binary m op left (← expr b right)
  | .unary m op operand => return .unary m op (← expr b operand)
  | .variant m name payload => return .variant m name (← expr b payload)
  | .unwrap m value name => return .unwrap m (← expr b value) name
  | .constant m value => return .constant m (← expr b value)
  | .ifElse m condition yes no => do
    let condition ← expr b condition
    let yes ← exprs b yes
    return .ifElse m condition yes (← exprs b no)
  | .matchValue m value arms otherwise => do
    let value ← expr b value
    let values ← armValues b arms
    let bodies ← armBodies b arms
    return .matchValue m value (values.zip bodies) (← exprs b otherwise)
  | .matchVariant m value arms (some otherwise) => do
    let value ← expr b value
    let arms ← variantArms b arms
    return .matchVariant m value arms (some (← exprs b otherwise))
  | .matchVariant m value arms none => do
    let value ← expr b value
    return .matchVariant m value (← variantArms b arms) none

/-- Bind the usages in expressions, in order. -/
def exprs (b : Binder M) : List (Expr TypeVar) → M (List (Expr TypeVar))
  | [] => pure []
  | e :: rest => do
    let e ← expr b e
    return e :: (← exprs b rest)

/-- Bind the usages in the members of an object. -/
def namedExprs (b : Binder M) : List (String × Expr TypeVar) → M (List (String × Expr TypeVar))
  | [] => pure []
  | (name, e) :: rest => do
    let e ← expr b e
    return (name, e) :: (← namedExprs b rest)

/-- Bind the usages in the constants of a match. -/
def armValues (b : Binder M) :
    List (Expr TypeVar × List (Expr TypeVar)) → M (List (Expr TypeVar))
  | [] => pure []
  | (e, _) :: rest => do
    let e ← expr b e
    return e :: (← armValues b rest)

/-- Bind the usages in the bodies of a match against constants. -/
def armBodies (b : Binder M) :
    List (Expr TypeVar × List (Expr TypeVar)) → M (List (List (Expr TypeVar)))
  | [] => pure []
  | (_, body) :: rest => do
    let body ← exprs b body
    return body :: (← armBodies b rest)

/-- Bind the usages in the arms of a match on variants. -/
def variantArms (b : Binder M) :
    List (VariantArm TypeVar (List (Expr TypeVar))) →
      M (List (VariantArm TypeVar (List (Expr TypeVar))))
  | [] => pure []
  | ⟨variant, binding, payload, body⟩ :: rest => do
    let body ← exprs b body
    return ⟨variant, binding, payload, body⟩ :: (← variantArms b rest)

end

end Binder
end Monomorph
