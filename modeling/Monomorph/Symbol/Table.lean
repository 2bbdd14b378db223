import Monomorph.Expr
import Monomorph.Symbol.Native
import Monomorph.Type.Written

/-!
# The symbol table

All procedures and module variables of a program by path. A reference is written short; *expansion*
gives the full paths it may mean, the least specific first, and `SymbolTable.resolve` takes the most
specific one that names a symbol.
-/

namespace Monomorph

/-- What a symbol is. -/
inductive Declaration where
  | procedure (params : List String) (body : List (Expr Unit))
  /-- A procedure without a body. -/
  | native (params : List String) (signature : NativeSignature)
  | moduleVariable (value : Expr Unit)
  /-- A module variable that is defined elsewhere and has a declared type. -/
  | external (type : WrittenType)
  deriving Inhabited

namespace Declaration

def params? : Declaration → Option (List String)
  | procedure params _ | native params _ => some params
  | _ => none

/-- Whether the symbol is a procedure. -/
def isProcedure (d : Declaration) : Bool := d.params?.isSome

end Declaration

/-- A named declaration. -/
structure Symbol where
  path : Path
  span : Span
  declaration : Declaration
  deriving Inhabited

/-- How short paths are expanded. -/
inductive Expansion where
  /-- In the core module, then as written, then in the module of the symbol that refers. -/
  | modules
  /-- Within each of these modules, in this order. -/
  | within (modules : List Path)
  deriving Inhabited

/-- The module of the symbols that are always there. -/
def corePath : Path := .single "core"

/-- Full paths that a short one may mean inside the symbol `user`, the least specific first. -/
def Expansion.expand (short user : Path) : Expansion → List Path
  | modules => [corePath.join short, short, user.module.join short].eraseDups
  | within outers => outers.map fun m => m.join short

/-- All symbols, each at the position that is its number. -/
structure SymbolTable where
  symbols : Array Symbol
  expansion : Expansion
  deriving Inhabited

namespace SymbolTable

def empty (expansion : Expansion) : SymbolTable := ⟨#[], expansion⟩

def size (t : SymbolTable) : Nat := t.symbols.size

def get? (t : SymbolTable) (id : Nat) : Option Symbol := t.symbols[id]?

/-- The number of the symbol with a full path. -/
def lookup (t : SymbolTable) (path : Path) : Option Nat :=
  t.symbols.findIdx? fun s => s.path == path

/-- Register a symbol. A path already taken keeps its number and gets the new declaration. -/
def add (t : SymbolTable) (s : Symbol) : Nat × SymbolTable :=
  match t.lookup s.path with
  | some id => (id, { t with symbols := t.symbols.setIfInBounds id s })
  | none => (t.size, { t with symbols := t.symbols.push s })

/-- The full paths that a short one may mean, the least specific first. -/
def expand (t : SymbolTable) (short user : Path) : List Path := t.expansion.expand short user

/-- The number of the most specific symbol that a short path names. -/
def resolve (t : SymbolTable) (short user : Path) : Option Nat :=
  (t.expand short user).reverse.findSome? t.lookup

end SymbolTable
end Monomorph
