import Monomorph.Expr
import Monomorph.Type.Kind

/-!
# Variants

A symbol is solved again for every use; each solution that is kept is a *variant* of the symbol. The
store holds the variants of every symbol in the order they were kept. Variants are only ever added, so a
list of their numbers marks a point in time, and going back means dropping what came after.
-/

namespace Monomorph

/-- One solution of a symbol. A module variable has no arguments, and the one expression of its body is
its value. Natives and external variables have no body. -/
structure Variant where
  args : List TypeVar
  returns : TypeVar
  body : Option (List (Expr TypeVar))
  deriving Inhabited

/-- The variants of every symbol, by the number of the symbol. -/
abbrev VariantStore := Array (List Variant)

/-- How many variants each symbol had at one point in time. -/
abbrev Watermark := Array Nat

namespace VariantStore

def ofSymbol (store : VariantStore) (id : Nat) : List Variant := store.getD id []

def append (store : VariantStore) (id : Nat) (v : Variant) : VariantStore :=
  store.modify id fun variants => variants ++ [v]

/-- Drop all variants of a symbol; the store grows if it has no place for the symbol yet. -/
def clear (store : VariantStore) (id : Nat) : VariantStore :=
  if id < store.size then store.setIfInBounds id []
  else store ++ Array.replicate (id + 1 - store.size) []

def watermark (store : VariantStore) : Watermark := store.map List.length

/-- Drop the variants added since a point in time. -/
def rollback (store : VariantStore) (mark : Watermark) : VariantStore :=
  store.mapIdx fun id variants =>
    match mark[id]? with
    | some count => variants.take count
    | none => variants

end VariantStore
end Monomorph
