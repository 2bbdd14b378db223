import Monomorph.Constraint

/-!
# Native signatures

The signature of a procedure without a body: a number of type variables of its own, which of them are
its arguments and its result, and what is demanded of them. Every use gets variables of its own.
-/

namespace Monomorph

/-- A signature over variables of its own, numbered from `0`. -/
structure NativeSignature where
  varCount : Nat
  args : List TypeVar
  returns : TypeVar
  demands : List (TypeVar × Demand)
  deriving Inhabited

/-- A signature with variables of the graph, and the constraints on them. -/
structure Signature where
  args : List TypeVar
  returns : TypeVar
  constraints : List Constraint

namespace NativeSignature

/-- Allocate the signature's variables; the constraints are made at `span`. -/
def instantiate (n : NativeSignature) (span : Span) (g : TypeGraph) : Signature × TypeGraph :=
  let shift (v : TypeVar) : TypeVar := ⟨g.size + v.index⟩
  let g' : TypeGraph := ⟨g.cells ++ Array.replicate n.varCount (.root Ty.any)⟩
  (⟨n.args.map shift, shift n.returns,
    n.demands.map fun d => ⟨shift d.1, span, d.2.mapVars shift⟩⟩, g')

end NativeSignature
end Monomorph
