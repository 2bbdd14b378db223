import Monomorph.Symbol.Table

/-!
# The core symbols

The procedures that are always there. Most have no body and are given by their signature; the ranges are
ordinary procedures.
-/

namespace Monomorph.Core

/-- A signature under construction. -/
structure Sketch where
  varCount : Nat := 0
  demands : List (TypeVar × Demand) := []

abbrev SketchM := StateM Sketch

def newVar : SketchM TypeVar :=
  modifyGet fun d => (⟨d.varCount⟩, { d with varCount := d.varCount + 1 })

def demand (v : TypeVar) (what : Demand) : SketchM Unit :=
  modify fun d => { d with demands := d.demands ++ [(v, what)] }

def newTyped (base : BaseKind) : SketchM TypeVar := do
  let v ← newVar
  demand v (.isBase base none)
  return v

/-- The signature built from arguments and result. -/
def signature (build : SketchM (List TypeVar × TypeVar)) : NativeSignature :=
  let ((args, returns), sketch) := build.run {}
  ⟨sketch.varCount, args, returns, sketch.demands⟩

/-- Number of elements of an array or of bytes of a string. -/
def length : NativeSignature := signature do
  let thing ← newVar
  demand thing .isSequence
  return ([thing], ← newTyped .integer)

/-- Calls an iterator until it gives `end`. -/
def exhaust : NativeSignature := signature do
  let step ← newVar
  demand step (.limitVariants (.ofNames ["next", "end"]))
  let iter ← newVar
  demand iter (.hasSignature [] step)
  return ([iter], ← newTyped .unit)

/-- Whether two references lead to the same storage. -/
def addressEqual : NativeSignature := signature do
  let a ← newVar
  let b ← newVar
  demand a .isReferenced
  demand a (.unify b)
  return ([a, b], ← newTyped .boolean)

/-- Whether two unions hold the same variant. -/
def tagEqual : NativeSignature := signature do
  let a ← newTyped .union
  let b ← newVar
  demand a (.unify b)
  return ([a, b], ← newTyped .boolean)

def fail : NativeSignature := signature do
  let reason ← newTyped .string
  return ([reason], ← newTyped .unit)

def toText : NativeSignature := signature do
  let converted ← newVar
  return ([converted], ← newTyped .string)

def toInteger : NativeSignature := signature do
  let converted ← newVar
  demand converted .isNumeric
  return ([converted], ← newTyped .integer)

def toFloat : NativeSignature := signature do
  let converted ← newVar
  demand converted .isNumeric
  return ([converted], ← newTyped .float)

/-- A part of a string, from one position to another. -/
def substring : NativeSignature := signature do
  let source ← newTyped .string
  let start ← newTyped .integer
  let stop ← newTyped .integer
  return ([source, start, stop], ← newTyped .string)

def concat : NativeSignature := signature do
  let a ← newTyped .string
  let b ← newTyped .string
  return ([a, b], ← newTyped .string)

def hash : NativeSignature := signature do
  let thing ← newVar
  return ([thing], ← newTyped .integer)

/-! ### Procedures with a body -/

/-- The mark of an expression that stands in no text. -/
def unmarked : Mark Unit := ⟨.none, ()⟩

def named (name : String) : Expr Unit := .name unmarked (.single name)

def one : Expr Unit := .literal unmarked (.integer 1)

/-- `mut i = start; return || { if i >= end { return #end unit }; i = i + 1; return #next i - 1 }` -/
def range : List (Expr Unit) :=
  [.define unmarked "i" true (named "start"),
   .giveBack unmarked (.closure unmarked []
     [.ifElse unmarked (.binary unmarked .greaterEqual (named "i") (named "end"))
        [.giveBack unmarked (.variant unmarked "end" (.literal unmarked .unit))] [],
      .assign unmarked (named "i") (.binary unmarked .add (named "i") one),
      .giveBack unmarked
        (.variant unmarked "next" (.binary unmarked .subtract (named "i") one))]
     none)]

def rangeInclusive : List (Expr Unit) :=
  [.giveBack unmarked (.call unmarked (named "range")
    [named "start", .binary unmarked .add (named "end") one])]

/-! ### Registration -/

/-- The core symbols in the order they are registered. -/
def declarations : List (String × Declaration) :=
  [("length", .native ["thing"] length),
   ("exhaust", .native ["iter"] exhaust),
   ("addr_eq", .native ["a", "b"] addressEqual),
   ("tag_eq", .native ["a", "b"] tagEqual),
   ("panic", .native ["reason"] fail),
   ("as_str", .native ["converted"] toText),
   ("as_int", .native ["converted"] toInteger),
   ("as_flt", .native ["converted"] toFloat),
   ("substring", .native ["source", "start", "end"] substring),
   ("concat", .native ["a", "b"] concat),
   ("hash", .native ["thing"] hash),
   ("range", .procedure ["start", "end"] range),
   ("range_incl", .procedure ["start", "end"] rangeInclusive)]

def symbols : List Symbol :=
  declarations.map fun d => ⟨corePath.join (.single d.1), .none, d.2⟩

end Monomorph.Core
