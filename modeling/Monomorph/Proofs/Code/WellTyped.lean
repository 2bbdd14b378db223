import Monomorph.Code.Instr
import Monomorph.Draft
import Monomorph.Proofs.Draft.Nodes
import Monomorph.Proofs.Type.Lasting

/-! # Well-typed code

A slot is of one type from its allocation on, whatever is assigned to it; so code can be checked against the
types of its slots (`Instr.WellTyped`). What each operation asks of its arguments and its result is a table
(`Op.Fits`): copies and merges stay within one class, what is put into an array, an object or a union or taken
out of it is of the type inside, calls agree with the signature that is called, and what is given back is of
the type that the body gives back. -/

namespace Monomorph

/-- What code is checked against. -/
structure Typing where
  graph : TypeGraph
  /-- Whether a call of a variant of a procedure takes arguments of these types to a result of this type. -/
  calls : Path → Nat → List TypeVar → TypeVar → Prop
  /-- The unwraps in the body that the code comes from. -/
  unwraps : List Unwrap

/-- The body that code belongs to: what it gives back, and the types of the enclosing locals that it reaches
by name. -/
structure BodyTypes where
  returns : TypeVar
  captured : List (String × TypeVar)

/-- The type of the slot of a version. -/
def slotType (slots : Array Slot) (v : Version) : Option TypeVar := slots[v.slot]?.map Slot.type

/-- Versions are of some types, in order. -/
abbrev HaveTypes (slots : Array Slot) : List Version → List TypeVar → Prop :=
  List.Forall₂ fun v type => slotType slots v = some type

/-- The first slots have the types of the arguments. -/
def ArgumentSlots (slots : Array Slot) (args : List TypeVar) : Prop :=
  ∀ {i : Nat} {type}, args[i]? = some type → slots[i]?.map Slot.type = some type

/-- An operator on two values, which are of one type. -/
def BinaryOp.Fits (t : Typing) (op : BinaryOp) (left right result : TypeVar) : Prop :=
  t.graph.Same left right ∧
    if op.isArithmetic then (t.graph.kind left).isNumeric = true ∧ t.graph.Same left result
    else if op.isComparison then (t.graph.kind left).isNumeric = true ∧ t.graph.kind result = .boolean
    else if op.isEquality then t.graph.kind result = .boolean
    else t.graph.kind left = .boolean ∧ t.graph.Same left result

def UnaryOp.Fits (t : Typing) (operand result : TypeVar) : UnaryOp → Prop
  | .negate => (t.graph.kind operand).isNumeric = true ∧ t.graph.Same operand result
  | .not => t.graph.kind operand = .boolean ∧ t.graph.Same operand result

/-- What an operation takes and what it gives: the types of its arguments and of its result, if it has one. -/
def Op.Fits (t : Typing) (b : BodyTypes) : Op → List TypeVar → Option TypeVar → Prop
  | .load value, [], some d => (Demand.isBase (DraftM.literalBase value) none).Satisfied t.graph d
  | .loadObject names, args, some d =>
    args.length = names.length ∧ (Demand.limitMembers (.ofNames names)).Satisfied t.graph d ∧
      ∀ e ∈ names.zip args, (Demand.hasMember e.1 e.2).Satisfied t.graph d
  | .loadArray, args, some d => ∃ element, t.graph.kind d = .array element ∧ ∀ v ∈ args, t.graph.Same element v
  | .loadRepeated, [v, size], some d =>
    (Demand.hasElement v).Satisfied t.graph d ∧ t.graph.kind size = .integer
  | .loadVariant name, [v], some d => (Demand.hasVariant name v).Satisfied t.graph d
  | .loadConstant _, [], some _ | .loadExternal _, [], some _ => True
  | .readMember name, [object], some d => (Demand.hasMember name d).Satisfied t.graph object
  | .writeMember name, [object, v], none => (Demand.hasMember name v).Satisfied t.graph object
  | .readElement, [array, index], some d =>
    (Demand.hasElement d).Satisfied t.graph array ∧ t.graph.kind index = .integer
  | .writeElement, [array, index, v], none =>
    (Demand.hasElement v).Satisfied t.graph array ∧ t.graph.kind index = .integer
  | .readCapture name, [], some v | .writeCapture name, [v], none =>
    ∀ type, b.captured.lookup name = some type → t.graph.Same type v
  | .copy, [v], some d => t.graph.Same v d
  | .binary op, [left, right], some d => op.Fits t left right d
  | .unary op, [v], some d => op.Fits t v d
  | .callProcedure path variant, args, some d => t.calls path variant args d
  | .callClosure, callee :: args, some d => (Demand.hasSignature args d).Satisfied t.graph callee
  | .giveBack, [v], none => t.graph.Same b.returns v
  | .phi, args, some d => args ≠ [] ∧ ∀ v ∈ args, t.graph.Same v d
  | _, _, _ => False

/-- An instruction is well-typed in a body with these slots. -/
inductive Instr.WellTyped (t : Typing) : BodyTypes → Array Slot → Instr → Prop where
  | op {b : BodyTypes} {slots : Array Slot} {op : Op} {args : List Version} {dest : Option Version}
    {types : List TypeVar} {type : Option TypeVar} (hargs : HaveTypes slots args types)
    (hdest : Option.Rel (fun v type => slotType slots v = some type) dest type) (hop : op.Fits t b types type) :
    WellTyped t b slots (.op op args dest)
  /-- The closure's own code is checked with its own slots; what it captures has the types it has outside. -/
  | closure {b : BodyTypes} {slots inner : Array Slot} {args : List TypeVar} {returns type : TypeVar}
    {captures : List (String × Version)} {captured : List (String × TypeVar)} {body : List Instr}
    {dest : Version} (hdest : slotType slots dest = some type)
    (hsignature : (Demand.hasSignature args returns).Satisfied t.graph type)
    (hcaptured : List.Forall₂ (fun c d => c.1 = d.1 ∧ slotType slots c.2 = some d.2) captures captured)
    (hargs : ArgumentSlots inner args) (hbody : ∀ i ∈ body, WellTyped t ⟨returns, captured⟩ inner i) :
    WellTyped t b slots (.closure args returns captures inner body dest)
  | branchValue {b : BodyTypes} {slots : Array Slot} {value : Version} {type : TypeVar}
    {arms : List (Nat × List Instr)} {otherwise : List Instr} (hvalue : slotType slots value = some type)
    (harms : ∀ arm ∈ arms, ∀ i ∈ arm.2, WellTyped t b slots i) (hlast : ∀ i ∈ otherwise, WellTyped t b slots i) :
    WellTyped t b slots (.branchValue value arms otherwise)
  | branchVariant {b : BodyTypes} {slots : Array Slot} {value : Version} {type : TypeVar}
    {arms : List (CodeArm (List Instr))} {otherwise : List Instr} (hvalue : slotType slots value = some type)
    (hbindings : ∀ arm ∈ arms, ∀ v ∈ arm.binding, ∃ payload, slotType slots v = some payload ∧
      (Demand.hasVariant arm.variant payload).Satisfied t.graph type)
    (harms : ∀ arm ∈ arms, ∀ i ∈ arm.body, WellTyped t b slots i)
    (hlast : ∀ i ∈ otherwise, WellTyped t b slots i) :
    WellTyped t b slots (.branchVariant value arms otherwise)
  /-- An unwrap gives any other variant back as it is, which need not be of the type given back. -/
  | unwrap {b : BodyTypes} {slots : Array Slot} {value payload : Version} {type inner : TypeVar}
    {name : String} (hvalue : slotType slots value = some type) (hpayload : slotType slots payload = some inner)
    (hinner : (Demand.hasVariant name inner).Satisfied t.graph type)
    (hunwrap : ⟨b.returns, type, name⟩ ∈ t.unwraps) :
    WellTyped t b slots (.branchVariant value [⟨name, some payload, []⟩] [.op .giveBack [value] none])

/-- The code of a procedure is well-typed. -/
structure Procedure.WellTyped (t : Typing) (p : Procedure) : Prop where
  args : ArgumentSlots p.slots p.args
  body : ∀ i ∈ p.body, i.WellTyped t ⟨p.returns, []⟩ p.slots

end Monomorph
