import Monomorph.Binding
import Monomorph.Type.Graph.Copy

/-!
# Solving and specialization

Solving a symbol drafts its body, applies the constraints and binds every usage to a variant of the
symbol it refers to. There is no generalization: every call solves its callee again, with type variables
of its own, and adds a variant to it. A procedure that is being solved already is not solved again but
reused as it is so far, which is how recursion ends; a module variable that is being solved already
depends on itself, which is an error.

A call tries its candidates from the most to the least specific. A candidate is first unified with
*copies* of the types at the call; only if that succeeds, with the types themselves. Variants that a
rejected candidate added are dropped.

`solve` recurses only into symbols while the present one is on the stack of symbols being solved, so it
ends: no symbol is twice on the stack.
-/

namespace Monomorph

/-- The signature of a variant that is solved or being solved. -/
structure Solved where
  variant : Nat
  args : List TypeVar
  returns : TypeVar
  deriving DecidableEq, Inhabited

/-- A symbol that is being solved. -/
structure Activation where
  symbol : Nat
  solved : Solved

/-- What a symbol is solved as. -/
inductive Request where
  /-- As a procedure, for a use at a place if there is one. -/
  | procedure (usage : Option Span)
  | moduleVariable
  deriving DecidableEq, Inhabited

namespace SolveM

/-! ### Steps -/

/-- Run a step of drafting on the type graph. -/
def draft (x : TypeGraph → Except TypeError Draft × TypeGraph) : SolveM Draft
  | ⟨graph, variants⟩ =>
    match x graph with
    | (.ok d, graph) => .ok d ⟨graph, variants⟩
    | (.error e, graph) => .error e ⟨graph, variants⟩

/-- Allocate the signature of a native procedure. -/
def instantiate (n : NativeSignature) (span : Span) : SolveM Signature
  | ⟨graph, variants⟩ =>
    let (signature, graph) := n.instantiate span graph
    .ok signature ⟨graph, variants⟩

def applyAll : List Constraint → SolveM Unit
  | [] => pure ()
  | c :: rest => do
    onGraph c.apply
    applyAll rest

def keepVariant (id : Nat) (v : Variant) : SolveM Unit
  | ⟨graph, variants⟩ => .ok () ⟨graph, variants.append id v⟩

/-- The variants of a symbol kept so far. -/
def variantsOf (id : Nat) : SolveM (List Variant) := return (← get).variants.ofSymbol id

/-- Drop the variants that a failing computation added, and give its error as a value. -/
def orRollback {α : Type} (x : SolveM α) : SolveM (Except TypeError α) := do
  let mark := (← get).variants.watermark
  fun w =>
    match x w with
    | .ok a w => .ok (.ok a) w
    | .error e ⟨graph, variants⟩ => .ok (.error e) ⟨graph, variants.rollback mark⟩

/-! ### Calls -/

/-- Unify a callee's arguments, numbered from `i`, with those of a call. -/
def unifyArgs (usage : ProcedureUsage) :
    (i : Nat) → (callee caller : List TypeVar) → SolveM Unit
  | i, a :: as, b :: bs => do
    onGraph (unifyAt a b ((usage.argSpans[i]?).getD usage.span) [.argument i])
    unifyArgs usage (i + 1) as bs
  | _, _, _ => pure ()

/-- Unify a callee's signature with the types at a call. -/
def unifyCall (usage : ProcedureUsage) (calleeArgs : List TypeVar) (calleeReturns : TypeVar)
    (callerArgs : List TypeVar) (callerReturns : TypeVar) : SolveM Unit := do
  unifyArgs usage 0 calleeArgs callerArgs
  onGraph (unifyAt calleeReturns callerReturns usage.span [.returns])

/-- Copy variables with everything reachable from them. -/
def copyAll (vs : List TypeVar) : SolveM (List TypeVar)
  | ⟨graph, variants⟩ => let (copies, graph) := graph.copyAll vs; .ok copies ⟨graph, variants⟩

/-- Unify a solved candidate with a call: first copies of all types involved, then these themselves.
The copies of the callee's arguments and result come first, then those of the call's. -/
def acceptCall (usage : ProcedureUsage) (solved : Solved) : SolveM Unit := do
  let arity := solved.args.length
  let copies ← copyAll (solved.args ++ [solved.returns] ++ usage.args ++ [usage.returns])
  let callee := copies.take (arity + 1)
  let caller := copies.drop (arity + 1)
  unifyCall usage (callee.take arity) (callee.getD arity default)
    (caller.take arity) (caller.getD arity default)
  unifyCall usage solved.args solved.returns usage.args usage.returns

/-- The outcome of trying the candidates of a call. -/
structure Trial where
  /-- The target the call is bound to. -/
  bound : Option Target
  /-- The candidates that are procedures, in the order tried. -/
  considered : List Path
  /-- Why candidates were rejected, in the order tried. -/
  rejections : List TypeError

/-- Try candidates in the given order until one accepts the call. -/
def tryCandidates (table : SymbolTable) (usage : ProcedureUsage)
    (solve : Nat → SolveM Solved) : List Path → SolveM Trial
  | [] => pure ⟨none, [], []⟩
  | candidate :: rest =>
    match (table.lookup candidate).bind fun id => (table.get? id).map fun s => (id, s) with
    | none => tryCandidates table usage solve rest
    | some (id, symbol) =>
      match symbol.declaration.params? with
      | none => tryCandidates table usage solve rest
      | some params => do
        let rejected (e : TypeError) : SolveM Trial := do
          let trial ← tryCandidates table usage solve rest
          return { trial with
            considered := candidate :: trial.considered
            rejections := e :: trial.rejections }
        if params.length ≠ usage.args.length then
          rejected (.single usage.span
            (.argumentCount candidate params.length usage.args.length symbol.span))
        else
          let attempt : SolveM Nat := do
            let solved ← solve id
            acceptCall usage solved
            return solved.variant
          match ← orRollback attempt with
          | .ok variant => return ⟨some (.resolved candidate variant), [candidate], []⟩
          | .error e => rejected e

/-- Bind a use of a procedure to the most specific candidate that accepts it. -/
def bindCall (table : SymbolTable) (user : Path) (solve : Nat → Span → SolveM Solved)
    (usage : ProcedureUsage) : SolveM Target := do
  let candidates :=
    match usage.kind with
    | .call => table.expand usage.path user
    | .reference => [usage.path]
  let trial ← tryCandidates table usage (fun id => solve id usage.span) candidates.reverse
  match trial.bound, trial.rejections with
  | some target, _ => return target
  | none, [] => throw (.single usage.span (.unknownSymbol usage.path))
  | none, [e] => throw e
  | none, errors =>
    throw (.noViableCandidate usage.span usage.path trial.considered errors)

def bindGlobal (table : SymbolTable) (solve : Nat → SolveM Solved) (usage : VariableUsage) :
    SolveM Target := do
  match table.lookup usage.path with
  | none => throw (.single usage.span (.unknownSymbol usage.path))
  | some id =>
    let solved ← solve id
    onGraph (unify usage.type solved.returns usage.span)
    return .resolved usage.path solved.variant

end SolveM

/-! ### Symbols -/

/-- The parameters of a procedure by its full path. -/
def SymbolTable.paramsOf (table : SymbolTable) (path : Path) : List String :=
  (((table.lookup path).bind table.get?).bind fun s => s.declaration.params?).getD []

/-- Solve a symbol while the symbols on the stack are being solved. With `keep`, the variant is kept, and
so are the variants of everything it refers to. -/
def solve (table : SymbolTable) (keep : Bool) (stack : List Activation) (request : Request)
    (id : Nat) : SolveM Solved :=
  match _hid : table.get? id with
  | none => throw (.single .none (.unknownSymbol ⟨[]⟩))
  | some symbol =>
    if _hstack : id ∈ stack.map Activation.symbol then
      match request with
      | .procedure _ =>
        match stack.find? fun a => a.symbol == id with
        | some a => pure a.solved
        | none => throw (.single symbol.span (.unknownSymbol symbol.path))
      | .moduleVariable => throw (.single symbol.span (.selfReference symbol.path))
    else
      let bindBody (solved : Solved) (usages : Usages) (body : List (Expr TypeVar)) :
          SolveM (List (Expr TypeVar)) :=
        let stack' := ⟨id, solved⟩ :: stack
        Binder.exprs
          ⟨SolveM.bindCall table symbol.path fun id' usage =>
              solve table keep stack' (.procedure (some usage)) id',
            SolveM.bindGlobal table fun id' => solve table keep stack' .moduleVariable id',
            table.paramsOf, usages⟩ body
      match request, symbol.declaration with
      | .procedure _, .procedure params body => do
        let variant := (← SolveM.variantsOf id).length
        let d ← SolveM.draft (Draft.ofProcedure ⟨table, symbol.path⟩ params body symbol.span)
        let solved : Solved := ⟨variant, d.args, d.returns⟩
        SolveM.applyAll d.constraints
        let body ← bindBody solved d.usages d.body
        if keep then SolveM.keepVariant id ⟨d.args, d.returns, some body⟩
        return solved
      | .procedure usage, .native _ native => do
        let variant := (← SolveM.variantsOf id).length
        let signature ← SolveM.instantiate native (usage.getD symbol.span)
        SolveM.applyAll signature.constraints
        if keep then SolveM.keepVariant id ⟨signature.args, signature.returns, none⟩
        return ⟨variant, signature.args, signature.returns⟩
      | .procedure usage, _ =>
        throw (.single (usage.getD .none) (.unknownSymbol symbol.path))
      | .moduleVariable, .moduleVariable value => do
        match ← SolveM.variantsOf id with
        | known :: _ => return ⟨0, [], known.returns⟩
        | [] =>
          let d ← SolveM.draft (Draft.ofVariable ⟨table, symbol.path⟩ value)
          SolveM.applyAll d.constraints
          let body ← bindBody ⟨0, [], d.returns⟩ d.usages d.body
          if keep then SolveM.keepVariant id ⟨[], d.returns, some body⟩
          return ⟨0, [], d.returns⟩
      | .moduleVariable, .external type => do
        match ← SolveM.variantsOf id with
        | known :: _ => return ⟨0, [], known.returns⟩
        | [] =>
          let v ← SolveM.onGraph (type.build (some symbol.span) [])
          if keep then SolveM.keepVariant id ⟨[], v, none⟩
          return ⟨0, [], v⟩
      | .moduleVariable, _ => throw (.single symbol.span (.unknownSymbol symbol.path))
termination_by remaining table.size fun i => decide (i ∉ stack.map Activation.symbol)
decreasing_by
  all_goals
    have hid : id < table.size := (Array.getElem?_eq_some_iff.1 _hid).1
    refine remaining_lt hid (decide_eq_true _hstack) (by simp) fun i _ hi => ?_
    have h := of_decide_eq_true hi
    exact decide_eq_true fun hmem => h (List.mem_cons_of_mem _ hmem)

def solveSymbol (table : SymbolTable) (keep : Bool) (id : Nat) : SolveM Solved :=
  let isProcedure := (table.get? id).any fun s => s.declaration.isProcedure
  solve table keep [] (if isProcedure then .procedure none else .moduleVariable) id

end Monomorph
