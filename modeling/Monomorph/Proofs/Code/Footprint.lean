import Monomorph.Expr
import Monomorph.Proofs.Code.Run

/-! # Footprints of expressions

What an expression does to the locals around it, read off the tree: the names it declares in the present
block, the names of outer locals it may assign, and those of them whose assignment its lowered code may
lose. An update of an outer local is lost in two ways. An arm of a branch assigns the local and then
declares a local of the same name for itself, so that at the end of the arm the name stands for the new
local; or the right operand of `and` or `or` assigns it, after which no versions are merged.

The footprint of a sequence is `Footprint.seq`: what the second part does to a name that the first part
declares does not concern the local outside. -/

namespace Monomorph

/-- The effect on the locals around. -/
structure Footprint where
  /-- Names declared in the present block. -/
  declares : List String
  /-- Names of locals around that may be assigned. -/
  touches : List String
  /-- Names of locals around of which an assignment may be lost. -/
  loses : List String
  /-- The branches in the code. -/
  branches : List Shape

namespace Footprint

def none : Footprint := ⟨[], [], [], []⟩

def declare (name : String) : Footprint := ⟨[name], [], [], []⟩

def assign (name : String) : Footprint := ⟨[], [name], [], []⟩

def seq (a b : Footprint) : Footprint where
  declares := a.declares ++ b.declares
  touches := a.touches ++ b.touches.filter (· ∉ a.declares)
  loses := a.loses ++ b.loses.filter (· ∉ a.declares)
  branches := a.branches ++ b.branches

/-- The names that a block as an arm of a branch may lose. -/
def lostInArm (arm : Footprint) : List String :=
  arm.loses.filter (· ∉ arm.declares) ++ arm.touches.filter (· ∈ arm.declares)

def branch (arms : List Footprint) : Footprint where
  declares := []
  touches := arms.flatMap touches
  loses := arms.flatMap lostInArm
  branches := [.branch (arms.map branches)]

/-- The right operand of `and` or `or`. -/
def operand (right : Footprint) : Footprint :=
  ⟨[], right.touches, right.touches, [.branch [[], right.branches]]⟩

def unwrap : Footprint := ⟨[], [], [], [.branch [[], []]]⟩

@[simp] theorem seq_none (a : Footprint) : a.seq none = a := by simp [seq, none]

@[simp] theorem none_seq (a : Footprint) : none.seq a = a := by simp [seq, none]

end Footprint

namespace Expr

variable {α : Type}

mutual

def footprint : Expr α → Footprint
  | .literal .. | .name .. | .localVar .. | .global .. | .procedure .. | .closure .. | .constant .. =>
    .none
  | .invoke _ _ args => footprints args
  | .call _ callee args => (footprint callee).seq (footprints args)
  | .method _ receiver _ args => (footprint receiver).seq (footprints args)
  | .define _ n _ value => (footprint value).seq (.declare n)
  | .declare _ n _ => .declare n
  | .assign _ (.localVar _ n) value => (footprint value).seq (.assign n)
  | .assign _ (.member _ target _) value => (footprint value).seq (footprint target)
  | .assign _ (.element _ target index) value =>
    (footprint value).seq ((footprint target).seq (footprint index))
  | .assign _ _ value => footprint value
  | .giveBack _ value => footprint value
  | .object _ members => namedFootprints members
  | .array _ elements => footprints elements
  | .repeated _ value size => (footprint value).seq (footprint size)
  | .member _ value _ => footprint value
  | .element _ value index => (footprint value).seq (footprint index)
  | .binary _ .and left right => (footprint left).seq (footprint right).operand
  | .binary _ .or left right => (footprint left).seq (footprint right).operand
  | .binary _ _ left right => (footprint left).seq (footprint right)
  | .unary _ _ operand => footprint operand
  | .variant _ _ payload => footprint payload
  | .unwrap _ value _ => (footprint value).seq .unwrap
  | .ifElse _ condition yes no =>
    (footprint condition).seq (.branch [footprints yes, footprints no])
  | .matchValue _ value arms otherwise =>
    (footprint value).seq (.branch (valueArmFootprints arms ++ [footprints otherwise]))
  | .matchVariant _ value arms (some otherwise) =>
    (footprint value).seq (.branch (variantArmFootprints arms ++ [footprints otherwise]))
  | .matchVariant _ value arms none =>
    (footprint value).seq (.branch (variantArmFootprints arms))

/-- The footprint of expressions in order. -/
def footprints : List (Expr α) → Footprint
  | [] => .none
  | e :: rest => (footprint e).seq (footprints rest)

/-- The footprint of named expressions in order. -/
def namedFootprints : List (String × Expr α) → Footprint
  | [] => .none
  | (_, e) :: rest => (footprint e).seq (namedFootprints rest)

/-- The footprints of the bodies of a match against constants. -/
def valueArmFootprints : List (Expr α × List (Expr α)) → List Footprint
  | [] => []
  | (_, body) :: rest => footprints body :: valueArmFootprints rest

/-- The footprints of the arms of a match on variants, which declare their bindings. -/
def variantArmFootprints : List (VariantArm α (List (Expr α))) → List Footprint
  | [] => []
  | ⟨_, some n, _, body⟩ :: rest =>
    (Footprint.declare n).seq (footprints body) :: variantArmFootprints rest
  | ⟨_, none, _, body⟩ :: rest => footprints body :: variantArmFootprints rest

end

end Expr
end Monomorph
