import Monomorph.Type.Graph
import Monomorph.Type.Meet

/-!
# Unification

`unify` makes two variables one class and so on for all types inside them that have to agree. Pairs wait
in a queue; each pair is joined *before* the pairs inside it are looked at, so unification ends on graphs
with cycles: every join leaves one class less, and between joins the queue gets shorter.

A failing unification keeps the joins made before the clash.
-/

namespace Monomorph

/-- A computation that changes the type graph and may fail; a failure keeps the changes made so far. -/
abbrev TypeM := EStateM TypeError TypeGraph

/-- A pair of variables that have to be of one type, and where it stands inside the pair demanded. -/
structure PendingPair where
  left : TypeVar
  right : TypeVar
  path : StepPath

/-- The error of a clash between two types. -/
def Clash.toError (span : Span) (path : StepPath) (a b : Ty) : Clash → TypeError
  | .kinds left right => .single span (.incompatible left right a.origin b.origin path)
  | .layouts left right => .single span (.layoutMismatch left right a.origin b.origin path)

/-- The type of the joined class, and the pairs inside. Where both sides contribute, the left one's
origin is kept if it has one. -/
def Ty.merge (a b : Ty) : Except Clash (Ty × List InnerPair) :=
  match a.kind.meet b.kind with
  | .ok .left => .ok (a, [])
  | .ok .right => .ok (b, [])
  | .ok (.both kind inner) => .ok (⟨kind, a.origin <|> b.origin⟩, inner)
  | .error clash => .error clash

/-- Unify every pair in the queue, first come first served. -/
def TypeGraph.unifyAll (span : Span) (g : TypeGraph) (queue : List PendingPair) :
    EStateM.Result TypeError TypeGraph Unit :=
  match queue with
  | [] => .ok () g
  | ⟨a, b, path⟩ :: rest =>
    let r := g.rootIndex a.index
    let s := g.rootIndex b.index
    if _h : r ≠ s ∧ r < g.size ∧ s < g.size then
      let x := g.get a
      let y := g.get b
      match x.merge y with
      | .error clash => .error (clash.toError span path x y) g
      | .ok (merged, inner) =>
        (g.joinIndex r s merged).unifyAll span
          (rest ++ inner.map fun p => ⟨p.left, p.right, p.step :: path⟩)
    else g.unifyAll span rest
termination_by (g.classCount, queue.length)
decreasing_by
  · exact Prod.Lex.left _ _ (g.classCount_joinIndex_lt _ _h.2.1 _h.2.2 _h.1
      (g.isRoot_rootIndex _) (g.isRoot_rootIndex _))
  · exact Prod.Lex.right _ (Nat.lt_succ_self _)

/-- Make two variables one class, as demanded at `span`; `path` says where the pair stands. -/
def unifyAt (a b : TypeVar) (span : Span) (path : StepPath) : TypeM Unit :=
  fun g => g.unifyAll span [⟨a, b, path⟩]

/-- Make two variables one class, as demanded at `span`. -/
def unify (a b : TypeVar) (span : Span) : TypeM Unit := unifyAt a b span []

end Monomorph
