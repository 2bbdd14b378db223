import Monomorph.Type.Unify

/-!
# Constraints

A constraint demands something of one type variable at one place of the program. Applying it narrows the
variable's type or unifies variables; it is applied once, in the order in which the program was read.

`Constraint.apply` gives the variable the demanded shape if its kind is a placeholder that admits it,
checks the kind if it is concrete, and otherwise reports what was expected and what was found.
-/

namespace Monomorph

/-- What can be demanded of a type variable. -/
inductive Demand where
  /-- Be of this kind. The reason is shown in reports. -/
  | isBase (base : BaseKind) (reason : Option String)
  | isNumeric
  | isIndexed
  | isReferenced
  /-- Be a string or an array. -/
  | isSequence
  | hasElement (element : TypeVar)
  | hasMember (name : String) (type : TypeVar)
  /-- Be an object that gains no further members. -/
  | limitMembers (names : NameSet)
  | hasSignature (args : List TypeVar) (returns : TypeVar)
  | hasVariant (name : String) (type : TypeVar)
  /-- Be a union of no other variants than these. -/
  | limitVariants (names : NameSet)
  /-- Have all variants that the other variable has now, except one. -/
  | variantsOfExcept (source : TypeVar) (left_out : String)
  | unify (other : TypeVar)
  deriving DecidableEq, Inhabited

/-- A demand on a variable, made at a place. -/
structure Constraint where
  target : TypeVar
  span : Span
  demand : Demand
  deriving DecidableEq, Inhabited

namespace Demand

/-- Apply a function to every variable in a demand. -/
def mapVars (f : TypeVar → TypeVar) : Demand → Demand
  | hasElement element => hasElement (f element)
  | hasMember name type => hasMember name (f type)
  | hasSignature args returns => hasSignature (args.map f) (f returns)
  | hasVariant name type => hasVariant name (f type)
  | variantsOfExcept source name => variantsOfExcept (f source) name
  | unify other => unify (f other)
  | demand => demand

end Demand

/-! ### Steps on the graph -/

/-- Allocate a variable of a given type. -/
def allocate (t : Ty) : TypeM TypeVar := fun g => let (v, g') := g.alloc t; .ok v g'

/-- Allocate a variable about which nothing is known. -/
def fresh : TypeM TypeVar := allocate Ty.any

/-- Give a variable's class a kind, justified at `span`. -/
def settle (v : TypeVar) (kind : Kind) (span : Option Span) : TypeM Unit :=
  fun g => .ok () (g.set v ⟨kind, span⟩)

/-- Allocate a variable for each name. -/
def freshFor : List String → TypeM (List (String × TypeVar))
  | [] => pure []
  | name :: names => do
    let v ← fresh
    let rest ← freshFor names
    return (name, v) :: rest

namespace Constraint

/-- The error of a type that is not what the constraint expects. -/
def mismatch (c : Constraint) (expected : String) (found : Ty) (reason : Option String) : TypeError :=
  .single c.span (.invalidType expected found.kind.describe found.origin reason)

/-- The error of a row that is closed and lacks a name. -/
def lacking (c : Constraint) (w : RowWords) (name : String) (found : Ty) : TypeError :=
  .single c.span (.invalidType (w.having name) (w.lacking name) found.origin none)

/-- Spread the variants to add over those a union lacks and those it has. An open union gains what it
lacks; of a closed one the first it lacks is the error. -/
def addVariants (isOpen : Bool) : (toAdd : List (String × TypeVar)) → (row : Row TypeVar) →
    Except String (Row TypeVar × List (String × TypeVar × TypeVar))
  | [], row => .ok (row, [])
  | (name, payload) :: rest, row =>
    match row.get? name with
    | some existing =>
      match addVariants isOpen rest row with
      | .ok (row', both) => .ok (row', (name, existing, payload) :: both)
      | .error missing => .error missing
    | none => if isOpen then addVariants isOpen rest (row.insert name payload) else .error name

/-- Narrow or unify the target as demanded. -/
def apply (c : Constraint) : TypeM Unit := do
  let g ← get
  let v := c.target
  let current := g.get v
  match c.demand with
  | .isBase base reason =>
    if base.accepts current.kind then pure ()
    else if base.refines current.kind then settle v base.instantiate c.span
    else throw (c.mismatch base.instantiate.describe current reason)
  | .isNumeric =>
    match current.kind with
    | .any => settle v .numeric c.span
    | kind => unless kind.isNumeric do throw (c.mismatch "a number" current none)
  | .isIndexed =>
    match current.kind with
    | .any | .referenced | .sequence => settle v .indexed c.span
    | kind => unless kind.isIndexed do throw (c.mismatch "an indexable value" current none)
  | .isReferenced =>
    match current.kind with
    | .any => settle v .referenced c.span
    | .sequence => settle v .indexed c.span
    | kind => unless kind.isReferenced do throw (c.mismatch "a reference value" current none)
  | .isSequence =>
    match current.kind with
    | .any => settle v .sequence c.span
    | .referenced => settle v .indexed c.span
    | kind => unless kind.isSequence do throw (c.mismatch "a string or an array" current none)
  | .hasElement element =>
    match current.kind with
    | .any | .referenced | .indexed | .sequence => settle v (.array element) c.span
    | .array existing => unifyAt existing element c.span [.element]
    | _ => throw (c.mismatch "an array" current none)
  | .hasMember name type =>
    match current.kind with
    | .any | .referenced => settle v (.object (Row.empty.insert name type) true none) c.span
    | .object members isOpen order =>
      match members.get? name with
      | some existing => unifyAt existing type c.span [.member name]
      | none =>
        if isOpen then settle v (.object (members.insert name type) isOpen order) c.span
        else throw (c.lacking .object name current)
    | _ => throw (c.mismatch "an object" current none)
  | .limitMembers names =>
    match current.kind with
    | .any | .referenced =>
      let members ← freshFor names.names
      settle v (.object (Row.ofList members) false none) c.span
    | .object members _ order => settle v (.object members false order) current.origin
    | _ => throw (c.mismatch "an object" current none)
  | .hasSignature args returns =>
    match current.kind with
    | .any | .referenced => settle v (.closure args returns) c.span
    | .closure existing result =>
      if existing.length = args.length then
        (argumentPairs 0 existing args).forM fun p => unifyAt p.left p.right c.span [p.step]
        unifyAt result returns c.span [.returns]
      else
        throw (.single c.span (.invalidType (closureWords args.length)
          (closureWords existing.length) current.origin none))
    | _ => throw (c.mismatch "a closure" current none)
  | .hasVariant name type =>
    match current.kind with
    | .any => settle v (.union (Row.empty.insert name type) true) c.span
    | .union variants isOpen =>
      match variants.get? name with
      | some existing => unifyAt existing type c.span [.variant name]
      | none =>
        if isOpen then settle v (.union (variants.insert name type) isOpen) c.span
        else throw (c.lacking .union name current)
    | _ => throw (c.mismatch "a union" current none)
  | .limitVariants names =>
    match current.kind with
    | .any =>
      let variants ← freshFor names.names
      settle v (.union (Row.ofList variants) false) c.span
    | .union variants _ =>
      match variants.names.find? fun name => !names.contains name with
      | some extra =>
        let listed := ", ".intercalate (names.names.map fun name => "#" ++ name)
        throw (.single c.span (.invalidType ("a union of only " ++ listed)
          (RowWords.union.having extra) current.origin none))
      | none => settle v (.union variants false) current.origin
    | _ => throw (c.mismatch "a union" current none)
  | .variantsOfExcept source left_out =>
    let sourceType := g.get source
    match sourceType.kind with
    | .union all _ =>
      let rest := all.filter fun name _ => name != left_out
      match current.kind with
      | .any => settle v (.union rest true) c.span
      | .union variants isOpen =>
        match addVariants isOpen rest.entries variants with
        | .error name => throw (c.lacking .union name current)
        | .ok (row, both) =>
          settle v (.union row isOpen) current.origin
          both.forM fun e => unifyAt e.2.1 e.2.2 c.span [.variant e.1]
      | _ => throw (c.mismatch "a union" current none)
    | _ => throw (c.mismatch "a union" sourceType none)
  | .unify other => Monomorph.unify v other c.span

end Constraint
end Monomorph
