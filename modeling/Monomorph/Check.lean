import Monomorph.Specialize
import Monomorph.Symbol.Core

/-!
# Checking a program

A program is a symbol table with the type graph and the variants solved so far. `Program.check` solves
every symbol in the order of registration. The variants of entry points and of all they reach are kept;
every other symbol is solved only for its errors. A symbol that fails leaves no variants.
-/

namespace Monomorph

/-- Symbols, and what is known about them. -/
structure Program where
  symbols : SymbolTable
  workspace : Workspace
  deriving Inhabited

/-- What a check starts from. -/
structure CheckOptions where
  /-- Full paths of the symbols whose variants are kept. -/
  entries : List Path
  /-- Whether the core symbols are registered first. -/
  withCore : Bool
  deriving Inhabited

namespace Program

def empty (expansion : Expansion) : Program := ⟨.empty expansion, ⟨.empty, #[]⟩⟩

/-- Register a symbol and give its number. A symbol registered again loses its variants. -/
def add (p : Program) (s : Symbol) : Nat × Program :=
  let (id, symbols) := p.symbols.add s
  (id, ⟨symbols, { p.workspace with variants := p.workspace.variants.clear id }⟩)

/-- Register the core symbols whose paths are not taken. -/
def addCore (p : Program) : Program :=
  Core.symbols.foldl (fun p s => if (p.symbols.lookup s.path).isSome then p else (p.add s).2) p

/-- Run a computation of the solver; a failure keeps its changes. -/
def run {α : Type} (p : Program) (x : SolveM α) : Except TypeError α × Program :=
  match x p.workspace with
  | .ok a workspace => (.ok a, { p with workspace })
  | .error e workspace => (.error e, { p with workspace })

/-- Run a computation on the type graph; a failure keeps its changes. -/
def runOnGraph {α : Type} (p : Program) (x : TypeM α) : Except TypeError α × Program :=
  p.run (SolveM.onGraph x)

/-- Solve one symbol; a failure leaves no variants. -/
def checkSymbol (symbols : SymbolTable) (keep : Bool) (id : Nat) (workspace : Workspace) :
    Option TypeError × Workspace :=
  let mark := workspace.variants.watermark
  match solveSymbol symbols keep id workspace with
  | .ok _ workspace => (none, workspace)
  | .error e workspace =>
    (some e, { workspace with variants := workspace.variants.rollback mark })

/-- Solve symbols in order, collecting each error once. -/
def checkSymbols (symbols : SymbolTable) (entries : List Path) :
    List Nat → List TypeError → Workspace → List TypeError × Workspace
  | [], errors, workspace => (errors, workspace)
  | id :: ids, errors, workspace =>
    let keep := (symbols.get? id).any fun s => s.path ∈ entries
    let (error?, workspace) := checkSymbol symbols keep id workspace
    let errors :=
      match error? with
      | some e => if e ∈ errors then errors else errors ++ [e]
      | none => errors
    checkSymbols symbols entries ids errors workspace

/-- The errors of entries that name no symbol. -/
def missingEntries (symbols : SymbolTable) (entries : List Path) : List TypeError :=
  (entries.filter fun path => (symbols.lookup path).isNone).map fun path =>
    .single .none (.unknownSymbol path)

/-- Check every symbol: the errors found, and the program with the variants kept. -/
def check (p : Program) (options : CheckOptions) : List TypeError × Program :=
  let p := if options.withCore then p.addCore else p
  let missing := missingEntries p.symbols options.entries
  let (errors, workspace) :=
    checkSymbols p.symbols options.entries (List.range p.symbols.size) missing p.workspace
  (errors, ⟨p.symbols, workspace⟩)

end Program
end Monomorph
