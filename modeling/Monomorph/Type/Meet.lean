import Monomorph.Type.Kind
import Monomorph.TypeError

/-!
# The meet of two kinds

When two values have to be of one type, their kinds are combined level by level. `Kind.meet` combines
one level: a placeholder gives way to a kind of its category, two equal constructors keep the left
one's variables and demand that the types inside agree, rows gain the names of the other side if they
are open. Everything else is a clash.
-/

namespace Monomorph

/-- Two variables inside two kinds that have to be of one type, with the step that leads to them. -/
structure InnerPair where
  left : TypeVar
  right : TypeVar
  step : PathStep
  deriving DecidableEq

/-- How two kinds combine. -/
inductive Meet where
  /-- The left kind is at least as precise. -/
  | left
  /-- The right kind is at least as precise. -/
  | right
  /-- A kind that is more precise than either, or has the same constructor as both, and the pairs of
  types inside that have to agree. -/
  | both (kind : Kind) (inner : List InnerPair)
  deriving DecidableEq

/-- Why two kinds do not combine. -/
inductive Clash where
  /-- The two sides, as a report calls them. -/
  | kinds (left right : String)
  /-- Two different fixed member orders. -/
  | layouts (left right : List String)
  deriving DecidableEq

namespace Row

variable {α : Type}

/-- The first name of `wanted` that `row` lacks. -/
def firstMissing? (row wanted : Row α) : Option String :=
  wanted.names.find? fun name => !row.contains name

/-- The row with the names added that only the other has. -/
def extend (row other : Row α) : Row α :=
  other.entries.foldl (fun r e => if row.contains e.1 then r else r.insert e.1 e.2) row

/-- The names that both rows have, with both values. -/
def shared (row other : Row α) : List (String × α × α) :=
  other.entries.filterMap fun e => (row.get? e.1).map fun v => (e.1, v, e.2)

end Row

/-- How a report names a row that has or lacks a name. -/
structure RowWords where
  noun : String
  field : String → String

def RowWords.object : RowWords := ⟨"an object", fun name => s!"member `{name}`"⟩

def RowWords.union : RowWords := ⟨"a union", fun name => s!"variant `#{name}`"⟩

def RowWords.having (w : RowWords) (name : String) : String := s!"{w.noun} with a {w.field name}"

def RowWords.lacking (w : RowWords) (name : String) : String :=
  s!"{w.noun} without a {w.field name}"

/-- The phrase for a closure by its number of arguments. -/
def closureWords (arity : Nat) : String := s!"a closure with {arity} arguments"

/-- Combine two rows: a closed one must have every name of the other. -/
def meetRows (w : RowWords) (step : String → PathStep) (a b : Row TypeVar) (aOpen bOpen : Bool) :
    Except Clash (Row TypeVar × List InnerPair) :=
  match if aOpen then none else a.firstMissing? b with
  | some name => .error (.kinds (w.lacking name) (w.having name))
  | none =>
    match if bOpen then none else b.firstMissing? a with
    | some name => .error (.kinds (w.having name) (w.lacking name))
    | none =>
      .ok (a.extend b, (a.shared b).map fun e => ⟨e.2.1, e.2.2, step e.1⟩)

/-- The pairs of arguments, numbered from `i`. -/
def argumentPairs : (i : Nat) → (as bs : List TypeVar) → List InnerPair
  | i, a :: as, b :: bs => ⟨a, b, .argument i⟩ :: argumentPairs (i + 1) as bs
  | _, _, _ => []

def Kind.meet (a b : Kind) : Except Clash Meet :=
  match a, b with
  | .any, _ => .ok .right
  | _, .any => .ok .left
  | .unit, .unit | .boolean, .boolean | .integer, .integer | .float, .float
  | .string, .string => .ok .left
  | .array x, .array y => .ok (.both (.array x) [⟨x, y, .element⟩])
  | .object xs xOpen xOrder, .object ys yOpen yOrder =>
    match xOrder, yOrder with
    | some p, some q =>
      if p ≠ q then .error (.layouts p q) else objects xs xOpen xOrder ys yOpen yOrder
    | _, _ => objects xs xOpen xOrder ys yOpen yOrder
  | .union xs xOpen, .union ys yOpen =>
    match meetRows .union .variant xs ys xOpen yOpen with
    | .ok (row, inner) => .ok (.both (.union row (xOpen && yOpen)) inner)
    | .error clash => .error clash
  | .closure xs x, .closure ys y =>
    if xs.length ≠ ys.length then
      .error (.kinds (closureWords xs.length) (closureWords ys.length))
    else .ok (.both (.closure xs x) (argumentPairs 0 xs ys ++ [⟨x, y, .returns⟩]))
  | .numeric, k => if k.isNumeric then .ok .right else clash a b
  | k, .numeric => if k.isNumeric then .ok .left else clash a b
  | .sequence, .referenced | .referenced, .sequence => .ok (.both .indexed [])
  | .indexed, k =>
    if k.isIndexed then .ok .right
    else if k = .referenced ∨ k = .sequence then .ok .left
    else clash a b
  | k, .indexed =>
    if k.isIndexed then .ok .left
    else if k = .referenced ∨ k = .sequence then .ok .right
    else clash a b
  | .referenced, k => if k.isReferenced then .ok .right else clash a b
  | k, .referenced => if k.isReferenced then .ok .left else clash a b
  | .sequence, k => if k.isSequence then .ok .right else clash a b
  | k, .sequence => if k.isSequence then .ok .left else clash a b
  | _, _ => clash a b
where
  /-- Kinds that have nothing in common. -/
  clash (a b : Kind) : Except Clash Meet := .error (.kinds a.describe b.describe)
  /-- Two objects whose fixed layouts do not contradict each other. -/
  objects (xs : Row TypeVar) (xOpen : Bool) (xOrder : Option (List String)) (ys : Row TypeVar)
      (yOpen : Bool) (yOrder : Option (List String)) : Except Clash Meet :=
    match meetRows .object .member xs ys xOpen yOpen with
    | .ok (row, inner) => .ok (.both (.object row (xOpen && yOpen) (xOrder <|> yOrder)) inner)
    | .error clash => .error clash

end Monomorph
