import Monomorph.Specialize

/-! # Solving with a stack of its own

`solve` is given the symbols that are being solved and ends because there are only so many of them. Here the solver
keeps them on a stack that it pushes to, pops from and cuts back, and nothing makes it end but a limit on how deep
solving may be nested. It notes every stack there is in a trace, and when solving a symbol has ended also the stack
before and after; whether the limit was reached; and whether an index was out of range, where a run is aborted. -/

namespace Monomorph

/-- What is noted about the stack. -/
inductive StackEvent where
  /-- It has become this one. -/
  | changed (scopes : Array Activation)
  /-- Solving a symbol has ended, with or without an error. -/
  | ended (before after : Array Activation)

/-- A solver with a stack. -/
structure Machine where
  workspace : Workspace
  /-- The symbols that are being solved, the latest one last. -/
  scopes : Array Activation
  /-- What was noted, the latest first. -/
  trace : List StackEvent
  /-- Whether the limit was reached. -/
  cutOff : Bool
  /-- Whether an index was out of range. -/
  aborted : Bool

namespace Machine

def start (w : Workspace) : Machine := ⟨w, #[], [], false, false⟩

def setScopes (m : Machine) (scopes : Array Activation) : Machine :=
  { m with scopes, trace := .changed scopes :: m.trace }

end Machine

/-- Solving with a stack; a failure keeps the changes made so far. -/
abbrev StackM := EStateM TypeError Machine

namespace StackM

variable {α : Type}

/-! ### Steps -/

/-- Run a computation on the workspace. -/
def onWorkspace (x : SolveM α) : StackM α := fun m =>
  match x m.workspace with
  | .ok a workspace => .ok a { m with workspace }
  | .error e workspace => .error e { m with workspace }

/-- Stop where an index is out of range. -/
def abort (e : TypeError) : StackM α := do
  modify fun m => { m with aborted := true }
  throw e

/-- Note that an index is out of range, unless the condition holds. -/
def checkRange (inRange : Bool) : StackM Unit :=
  modify fun m => { m with aborted := m.aborted || !inRange }

/-- Change the state by what it is before and after a computation, however that ends. -/
def closing (f : Machine → Machine → Machine) (x : StackM α) : StackM α := fun m =>
  match x m with
  | .ok a m' => .ok a (f m m')
  | .error e m' => .error e (f m m')

/-- Cut the stack back to the length that it has before a computation, however that ends. -/
def truncating (x : StackM α) : StackM α :=
  closing (fun m m' => m'.setScopes (m'.scopes.shrink m.scopes.size)) x

/-- Note the stack before and after a computation, however that ends. -/
def noting (x : StackM α) : StackM α :=
  closing (fun m m' => { m' with trace := .ended m.scopes m'.scopes :: m'.trace }) x

/-- Put a symbol on the stack, and take it off if the computation succeeds. -/
def pushed (a : Activation) (x : StackM α) : StackM α := do
  modify fun m => m.setScopes (m.scopes.push a)
  let result ← x
  modify fun m => m.setScopes m.scopes.pop
  return result

/-- Drop the variants that a failing computation added, and give its error as a value. -/
def orRollback (x : StackM α) : StackM (Except TypeError α) := do
  let mark := (← get).workspace.variants.watermark
  fun m =>
    match x m with
    | .ok a m => .ok (.ok a) m
    | .error e m =>
      .ok (.error e) { m with workspace := ⟨m.workspace.graph, m.workspace.variants.rollback mark⟩ }

instance : MonadBinding StackM where
  unit span := onWorkspace (MonadBinding.unit span)
  unbound span := abort (.unbound span)

def symbolAt (table : SymbolTable) (id : Nat) : StackM Symbol :=
  match table.get? id with
  | some symbol => pure symbol
  | none => abort (.single .none (.unknownSymbol ⟨[]⟩))

/-! ### Usages -/

/-- Solve a candidate and unify it with a call. The call has to have as many arguments as the candidate. -/
def tryCandidate (usage : ProcedureUsage) (solve : StackM Solved) : StackM Nat := do
  let solved ← solve
  checkRange (solved.args.length ≤ usage.args.length)
  onWorkspace (SolveM.acceptCall usage solved)
  return solved.variant

/-- Try candidates in the given order until one accepts the call. -/
def tryCandidates (table : SymbolTable) (usage : ProcedureUsage) (solve : Nat → StackM Solved) :
    List Path → StackM SolveM.Trial
  | [] => pure ⟨none, [], []⟩
  | candidate :: rest =>
    match (table.lookup candidate).bind fun id => (table.get? id).map fun s => (id, s) with
    | none => tryCandidates table usage solve rest
    | some (id, symbol) =>
      match symbol.declaration.params? with
      | none => tryCandidates table usage solve rest
      | some params => do
        let rejected (e : TypeError) : StackM SolveM.Trial := do
          let trial ← tryCandidates table usage solve rest
          return { trial with
            considered := candidate :: trial.considered
            rejections := e :: trial.rejections }
        if params.length ≠ usage.args.length then
          rejected (.single usage.span
            (.argumentCount candidate params.length usage.args.length symbol.span))
        else
          match ← orRollback (tryCandidate usage (solve id)) with
          | .ok variant => return ⟨some (.resolved candidate variant), [candidate], []⟩
          | .error e => rejected e

/-- Bind a use of a procedure to the most specific candidate that accepts it. -/
def bindCall (table : SymbolTable) (user : Path) (solve : Nat → Span → StackM Solved)
    (usage : ProcedureUsage) : StackM Target := do
  let candidates :=
    match usage.kind with
    | .call => table.expand usage.path user
    | .reference => [usage.path]
  let trial ← tryCandidates table usage (fun id => solve id usage.span) candidates.reverse
  match trial.bound, trial.rejections with
  | some target, _ => return target
  | none, [] => throw (.single usage.span (.unknownSymbol usage.path))
  | none, [e] => throw e
  | none, errors => throw (.noViableCandidate usage.span usage.path trial.considered errors)

def bindGlobal (table : SymbolTable) (solve : Nat → StackM Solved) (usage : VariableUsage) :
    StackM Target := do
  match table.lookup usage.path with
  | none => throw (.single usage.span (.unknownSymbol usage.path))
  | some id =>
    let solved ← solve id
    onWorkspace (SolveM.onGraph (unify usage.type solved.returns usage.span))
    return .resolved usage.path solved.variant

/-! ### Symbols -/

/-- The answers for the usages in a body, from how other symbols are solved. -/
def answers (table : SymbolTable) (user : Path) (usages : Usages) (solve : Request → Nat → StackM Solved) :
    Binder StackM :=
  ⟨bindCall table user fun id span => solve (.procedure (some span)) id, bindGlobal table (solve .moduleVariable),
    table.paramsOf, usages⟩

/-- Keep a variant if that is asked for. -/
def keeping (keep : Bool) (id : Nat) (v : Variant) : StackM Unit :=
  if keep then onWorkspace (SolveM.keepVariant id v) else pure ()

/-- Solve a procedure that is not on the stack. -/
def solveProcedure (table : SymbolTable) (keep : Bool) (solve : Request → Nat → StackM Solved)
    (usage : Option Span) (id : Nat) : StackM Solved := do
  let symbol ← symbolAt table id
  match symbol.declaration with
  | .procedure params body => do
    let variant := (← onWorkspace (SolveM.variantsOf id)).length
    let d ← onWorkspace (SolveM.draft (Draft.ofProcedure ⟨table, symbol.path⟩ params body symbol.span))
    let solved : Solved := ⟨variant, d.args, d.returns⟩
    let body ← pushed ⟨id, solved⟩ do
      onWorkspace (SolveM.applyAll d.constraints)
      (answers table symbol.path d.usages solve).exprs d.body
    keeping keep id ⟨d.args, d.returns, some body⟩
    return solved
  | .native _ native => do
    let variant := (← onWorkspace (SolveM.variantsOf id)).length
    let signature ← onWorkspace (SolveM.instantiate native (usage.getD symbol.span))
    let solved : Solved := ⟨variant, signature.args, signature.returns⟩
    pushed ⟨id, solved⟩ (onWorkspace (SolveM.applyAll signature.constraints))
    keeping keep id ⟨signature.args, signature.returns, none⟩
    return solved
  | _ => throw (.single (usage.getD .none) (.unknownSymbol symbol.path))

def solveVariable (table : SymbolTable) (keep : Bool) (solve : Request → Nat → StackM Solved) (id : Nat) :
    StackM Solved := do
  let symbol ← symbolAt table id
  if (← get).scopes.any fun a => a.symbol == id then
    throw (.single symbol.span (.selfReference symbol.path))
  else
    match symbol.declaration with
    | .moduleVariable value => do
      match ← onWorkspace (SolveM.variantsOf id) with
      | known :: _ => return ⟨0, [], known.returns⟩
      | [] =>
        let d ← onWorkspace (SolveM.draft (Draft.ofVariable ⟨table, symbol.path⟩ value))
        let body ← pushed ⟨id, ⟨0, [], d.returns⟩⟩ do
          onWorkspace (SolveM.applyAll d.constraints)
          (answers table symbol.path d.usages solve).exprs d.body
        keeping keep id ⟨[], d.returns, some body⟩
        return ⟨0, [], d.returns⟩
    | .external type => do
      match ← onWorkspace (SolveM.variantsOf id) with
      | known :: _ => return ⟨0, [], known.returns⟩
      | [] =>
        let v ← onWorkspace (SolveM.onGraph (type.build (some symbol.span) []))
        keeping keep id ⟨[], v, none⟩
        return ⟨0, [], v⟩
    | _ => throw (.single symbol.span (.unknownSymbol symbol.path))

/-- Solve a symbol, nested no deeper than `room`. -/
def solve (table : SymbolTable) (keep : Bool) : (room : Nat) → Request → Nat → StackM Solved
  | 0, _, _ => do
    modify fun m => { m with cutOff := true }
    throw (.single .none (.unknownSymbol ⟨[]⟩))
  | room + 1, .procedure usage, id => noting do
    match (← get).scopes.find? fun a => a.symbol == id with
    | some a => return a.solved
    | none => truncating (solveProcedure table keep (solve table keep room) usage id)
  | room + 1, .moduleVariable, id => noting do
    truncating (solveVariable table keep (solve table keep room) id)

def solveSymbol (table : SymbolTable) (keep : Bool) (room id : Nat) : StackM Solved := do
  let symbol ← symbolAt table id
  solve table keep room (if symbol.declaration.isProcedure then .procedure none else .moduleVariable) id

/-! ### How a run ends -/

/-- The end of a run, of which only the workspace matters. -/
def onlyWorkspace : EStateM.Result TypeError Machine α → EStateM.Result TypeError Workspace α
  | .ok a m => .ok a m.workspace
  | .error e m => .error e m.workspace

def final : EStateM.Result TypeError Machine α → Machine
  | .ok _ m | .error _ m => m

end StackM
end Monomorph
