import Monomorph.Constant.Fold
import Monomorph.Proofs.Code.Footprint

/-! # Evaluating trees

What the tree of a body means, for every meaning of the primitive operations (`Primitives`): expressions
are evaluated from left to right, blocks have locals of their own, a statement used as a value is unit.
A local is declared by putting it before the others, so the store at the end of a block is that at its
beginning, with other values, after the locals of the block.

An evaluation that does not reach the end of the tree stops (`Stop`): it gives back a value, it gets stuck
on a primitive operation, or a match that lists all variants lists none for the value. The trees with a
meaning are the *core* trees, `Expr.isCore`. -/

namespace Monomorph

/-- A value: an atom, or a variant of a union with its payload. -/
inductive Value (A : Type) where
  | atom (a : A)
  | variant (name : String) (payload : Value A)

/-- A meaning of the primitive operations. -/
structure Primitives (A : Type) where
  literal : Literal → A
  /-- What a local carries that was never assigned. -/
  undefined : A
  binary : BinaryOp → Value A → Value A → Option A
  unary : UnaryOp → Value A → Option A
  /-- Whether an atom is the constant. -/
  equals : Constant → A → Bool
  /-- Constants that are stored once are the same atoms. -/
  equals_congr : ∀ {c d : Constant}, (c == d) = true → equals c = equals d

/-- A primitive operation that has no result. -/
inductive Operation (A : Type) where
  | binary (op : BinaryOp) (left right : Value A)
  | unary (op : UnaryOp) (operand : Value A)
  /-- Telling the variant of a value. -/
  | split (value : Value A)
  /-- A local of an enclosing body. -/
  | capture (name : String)
  /-- Anything that core trees do not contain. -/
  | other

/-- Why a run stops before the end. -/
inductive Stop (A : Type) where
  | returned (value : Value A)
  | stuck (operation : Operation A)
  /-- No arm is there for the value's variant. -/
  | unmatched

/-- The payload of one variant; a value of any other variant is given back. -/
def Value.unwrap {A : Type} (name : String) : Value A → Except (Stop A) (Value A)
  | .variant n payload => if n == name then .ok payload else .error (.returned (.variant n payload))
  | .atom a => .error (.stuck (.split (.atom a)))

namespace Primitives

variable {A : Type} (P : Primitives A)

def unit : Value A := .atom (P.literal .unit)

/-- What a local is before it is assigned. -/
def unassigned : Value A := .atom P.undefined

def isConstant : Constant → Value A → Bool
  | .variant m c, .variant n v => m == n && isConstant c v
  | .variant .., .atom _ => false
  | c, .atom a => P.equals c a
  | _, .variant .. => false

/-- The result of an operation on two values. -/
def applyBinary (op : BinaryOp) (left right : Value A) : Except (Stop A) (Value A) :=
  match P.binary op left right with
  | some a => .ok (.atom a)
  | none => .error (.stuck (.binary op left right))

/-- The result of an operation on one value. -/
def applyUnary (op : UnaryOp) (operand : Value A) : Except (Stop A) (Value A) :=
  match P.unary op operand with
  | some a => .ok (.atom a)
  | none => .error (.stuck (.unary op operand))

theorem isConstant_congr {c d : Constant} (h : (c == d) = true) : P.isConstant c = P.isConstant d := by
  funext v
  induction v generalizing c d with
  | atom a =>
    cases c <;> cases d <;> first
      | rfl
      | exact congrFun (P.equals_congr h) a
      | exact absurd h (by simp [BEq.beq, Constant.eq])
  | variant n v ih =>
    cases c with
    | variant m c =>
      cases d with
      | variant m' d =>
        have h : (m == m' && (c == d)) = true := h
        obtain ⟨hm, hc⟩ := Bool.and_eq_true_iff.1 h
        rw [isConstant, isConstant, eq_of_beq hm, ih hc]
      | _ => cases h
    | _ =>
      cases d with
      | variant m' d => cases h
      | _ => rfl

end Primitives

/-! ### Stores -/

/-- The values of the visible locals, the one declared last first. -/
abbrev Store (A : Type) := List (String × Value A)

namespace Store

variable {A : Type}

def assign (name : String) (v : Value A) : Store A → Store A
  | [] => []
  | (n, w) :: rest => if n == name then (n, v) :: rest else (n, w) :: assign name v rest

/-- Leave a block: what is left of the store at its end. -/
def leave (outer inner : Store A) : Store A := inner.drop (inner.length - outer.length)

/-- The local for the payload of a variant, if an arm binds it. -/
def payload (binding : Option String) (v : Value A) : Store A := binding.toList.map fun n => (n, v)

end Store

/-! ### Arms -/

section select

variable {A : Type} (P : Primitives A)

/-- The number of the arm of a match against constants. -/
def selectValue (evaluate : Evaluator) (v : Value A) (arms : List (Expr TypeVar × List (Expr TypeVar))) :
    Option Nat :=
  arms.findIdx? fun arm =>
    match evaluate arm.1 with
    | .ok c => P.isConstant c v
    | .error _ => false

/-- The number of the arm of a match on variants. -/
def selectVariant (name : String) (arms : List (VariantArm TypeVar (List (Expr TypeVar)))) : Option Nat :=
  arms.findIdx? fun arm => arm.variant == name

end select

/-! ### Evaluation -/

namespace Expr

variable {A : Type} (P : Primitives A) (evaluate : Evaluator)

mutual

/-- Evaluate an expression to its value and the store afterwards. -/
def eval : Expr TypeVar → Store A → Except (Stop A) (Value A × Store A)
  | .literal _ value, σ => .ok (.atom (P.literal value), σ)
  | .localVar _ n, σ =>
    match σ.lookup n with
    | some v => .ok (v, σ)
    | none => .error (.stuck (.capture n))
  | .define _ n _ value, σ => do
    let (v, σ) ← eval value σ
    return (P.unit, (n, v) :: σ)
  | .declare _ n _, σ => .ok (P.unit, (n, P.unassigned) :: σ)
  | .assign _ (.localVar _ n) value, σ => do
    let (v, σ) ← eval value σ
    match σ.lookup n with
    | some _ => return (P.unit, σ.assign n v)
    | none => .error (.stuck (.capture n))
  | .giveBack _ value, σ => do
    let (v, _) ← eval value σ
    .error (.returned v)
  | .binary _ .and left right, σ => do
    let (l, σ) ← eval left σ
    if P.isConstant (.boolean false) l then return (l, σ) else eval right σ
  | .binary _ .or left right, σ => do
    let (l, σ) ← eval left σ
    if P.isConstant (.boolean true) l then return (l, σ) else eval right σ
  | .binary _ op left right, σ => do
    let (l, σ) ← eval left σ
    let (r, σ) ← eval right σ
    return (← P.applyBinary op l r, σ)
  | .unary _ op operand, σ => do
    let (v, σ) ← eval operand σ
    return (← P.applyUnary op v, σ)
  | .variant _ n payload, σ => do
    let (v, σ) ← eval payload σ
    return (.variant n v, σ)
  | .unwrap _ value n, σ => do
    let (v, σ) ← eval value σ
    return (← v.unwrap n, σ)
  | .ifElse _ condition yes no, σ => do
    let (v, σ) ← eval condition σ
    let inner ← (if P.isConstant (.boolean true) v then evals yes σ else evals no σ)
    return (P.unit, σ.leave inner)
  | .matchValue _ value arms otherwise, σ => do
    let (v, σ) ← eval value σ
    let inner ← (match selectValue P evaluate v arms with
      | some k => evalValueArm arms k σ
      | none => evals otherwise σ)
    return (P.unit, σ.leave inner)
  | .matchVariant _ value arms (some otherwise), σ => do
    let (v, σ) ← eval value σ
    match v with
    | .variant n payload => do
      let inner ← (match selectVariant n arms with
        | some k => evalVariantArm arms k payload σ
        | none => evals otherwise σ)
      return (P.unit, σ.leave inner)
    | .atom _ => .error (.stuck (.split v))
  | .matchVariant _ value arms none, σ => do
    let (v, σ) ← eval value σ
    match v with
    | .variant n payload =>
      match selectVariant n arms with
      | some k => do
        let inner ← evalVariantArm arms k payload σ
        return (P.unit, σ.leave inner)
      | none => .error .unmatched
    | .atom _ => .error (.stuck (.split v))
  | _, _ => .error (.stuck .other)

/-- Evaluate expressions in order, to the store at the end. -/
def evals : List (Expr TypeVar) → Store A → Except (Stop A) (Store A)
  | [], σ => .ok σ
  | e :: rest, σ => do
    let (_, σ) ← eval e σ
    evals rest σ

/-- Evaluate the body of one arm of a match against constants. -/
def evalValueArm : List (Expr TypeVar × List (Expr TypeVar)) → Nat → Store A →
    Except (Stop A) (Store A)
  | [], _, _ => .error (.stuck .other)
  | (_, body) :: _, 0, σ => evals body σ
  | _ :: rest, k + 1, σ => evalValueArm rest k σ

/-- Evaluate the body of one arm of a match on variants, with the payload bound if the arm binds it. -/
def evalVariantArm : List (VariantArm TypeVar (List (Expr TypeVar))) → Nat → Value A → Store A →
    Except (Stop A) (Store A)
  | [], _, _, _ => .error (.stuck .other)
  | ⟨_, some n, _, body⟩ :: _, 0, payload, σ => evals body ((n, payload) :: σ)
  | ⟨_, none, _, body⟩ :: _, 0, _, σ => evals body σ
  | _ :: rest, k + 1, payload, σ => evalVariantArm rest k payload σ

end

end Expr

/-! ### Core trees -/

namespace Expr

mutual

/-- Whether an expression neither declares nor assigns anything. -/
def isPure : Expr TypeVar → Bool
  | .literal .. | .localVar .. => true
  | .giveBack _ value => isPure value
  | .binary _ _ left right => isPure left && isPure right
  | .unary _ _ operand => isPure operand
  | .variant _ _ payload => isPure payload
  | .unwrap _ value _ => isPure value
  | .ifElse _ condition yes no => isPure condition && (arePure yes && arePure no)
  | .matchValue _ value arms otherwise =>
    isPure value && (areValueArmsPure arms && arePure otherwise)
  | .matchVariant _ value arms (some otherwise) =>
    isPure value && (areVariantArmsPure arms && arePure otherwise)
  | .matchVariant _ value arms none => isPure value && areVariantArmsPure arms
  | _ => false

/-- Whether expressions neither declare nor assign anything. -/
def arePure : List (Expr TypeVar) → Bool
  | [] => true
  | e :: rest => isPure e && arePure rest

/-- Whether the bodies of a match against constants neither declare nor assign anything. -/
def areValueArmsPure : List (Expr TypeVar × List (Expr TypeVar)) → Bool
  | [] => true
  | (_, body) :: rest => arePure body && areValueArmsPure rest

/-- Whether the bodies of a match on variants neither declare nor assign anything. -/
def areVariantArmsPure : List (VariantArm TypeVar (List (Expr TypeVar))) → Bool
  | [] => true
  | ⟨_, _, _, body⟩ :: rest => arePure body && areVariantArmsPure rest

end

mutual

/-- Whether an expression is core where some names are visible: made of literals, locals, declarations,
assignments to locals, operations, variants, conditionals, matches and results given back, such that
nothing declared has a visible name and the right operand of `and` and `or` neither declares nor assigns. -/
def isCore (visible : List String) : Expr TypeVar → Bool
  | .literal .. | .localVar .. => true
  | .define _ n _ value =>
    isCore visible value && !(n ∈ value.footprint.declares ++ visible : Bool)
  | .declare _ n _ => !(n ∈ visible : Bool)
  | .assign _ (.localVar _ _) value => isCore visible value
  | .giveBack _ value => isCore visible value
  | .binary _ .and left right | .binary _ .or left right =>
    isCore visible left && (isCore (left.footprint.declares ++ visible) right && isPure right)
  | .binary _ _ left right => isCore visible left && isCore (left.footprint.declares ++ visible) right
  | .unary _ _ operand => isCore visible operand
  | .variant _ _ payload => isCore visible payload
  | .unwrap _ value _ => isCore visible value
  | .ifElse _ condition yes no =>
    isCore visible condition &&
      (areCore (condition.footprint.declares ++ visible) yes &&
        areCore (condition.footprint.declares ++ visible) no)
  | .matchValue _ value arms otherwise =>
    isCore visible value &&
      (areValueArmsCore (value.footprint.declares ++ visible) arms &&
        areCore (value.footprint.declares ++ visible) otherwise)
  | .matchVariant _ value arms (some otherwise) =>
    isCore visible value &&
      (areVariantArmsCore (value.footprint.declares ++ visible) arms &&
        areCore (value.footprint.declares ++ visible) otherwise)
  | .matchVariant _ value arms none =>
    isCore visible value && areVariantArmsCore (value.footprint.declares ++ visible) arms
  | _ => false

/-- Whether expressions in order are core. -/
def areCore (visible : List String) : List (Expr TypeVar) → Bool
  | [] => true
  | e :: rest => isCore visible e && areCore (e.footprint.declares ++ visible) rest

/-- Whether the arms of a match against constants are core; their constants are so where nothing is
visible. -/
def areValueArmsCore (visible : List String) :
    List (Expr TypeVar × List (Expr TypeVar)) → Bool
  | [] => true
  | (e, body) :: rest => isCore [] e && (areCore visible body && areValueArmsCore visible rest)

/-- Whether the arms of a match on variants are core. -/
def areVariantArmsCore (visible : List String) :
    List (VariantArm TypeVar (List (Expr TypeVar))) → Bool
  | [] => true
  | ⟨_, some n, _, body⟩ :: rest =>
    !(n ∈ visible : Bool) && (areCore (n :: visible) body && areVariantArmsCore visible rest)
  | ⟨_, none, _, body⟩ :: rest => areCore visible body && areVariantArmsCore visible rest

end

end Expr
end Monomorph
