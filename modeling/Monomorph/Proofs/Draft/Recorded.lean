import Monomorph.Proofs.Draft.Layout
import Monomorph.Proofs.Outcome

/-! # What drafting records

Drafting an expression demands of its type variables what the expression says (`Expr.Recorded`): each
constructor has its own demands, on the notes of the expressions directly inside and on what the place gives
back, and every reference stands for a usage that was noted. Records only grow, so what one part of drafting
recorded is still there at the end (`Records.Extends`). -/

namespace Monomorph

/-! ### Records -/

/-- What is listed beside an annotated body. -/
structure Records where
  constraints : List Constraint
  procedures : List ProcedureUsage
  globals : List VariableUsage

namespace Records

/-- The records of one point are still there at another. -/
structure Extends (r' r : Records) : Prop where
  constraints : r.constraints <+: r'.constraints
  procedures : r.procedures <+: r'.procedures
  globals : r.globals <+: r'.globals

/-- Something is demanded of a variable. -/
def Demands (r : Records) (v : TypeVar) (d : Demand) : Prop := ∃ span, ⟨v, span, d⟩ ∈ r.constraints

/-- A variable is demanded to be of a base kind. -/
def DemandsBase (r : Records) (v : TypeVar) (base : BaseKind) : Prop :=
  ∃ reason, r.Demands v (.isBase base reason)

/-- A target stands for a procedure usage. -/
def Uses (r : Records) (t : Target) (usage : ProcedureUsage) : Prop :=
  ∃ i, t = .pending i ∧ r.procedures[i]? = some usage

/-- A target stands for a use of a module variable of a type. -/
def Reads (r : Records) (t : Target) (type : TypeVar) : Prop :=
  ∃ i usage, t = .pending i ∧ r.globals[i]? = some usage ∧ usage.type = type

variable {r r' r'' : Records}

theorem Extends.refl (r : Records) : r.Extends r :=
  ⟨List.prefix_rfl, List.prefix_rfl, List.prefix_rfl⟩

theorem Extends.trans (h' : r''.Extends r') (h : r'.Extends r) : r''.Extends r :=
  ⟨h.constraints.trans h'.constraints, h.procedures.trans h'.procedures, h.globals.trans h'.globals⟩

theorem Demands.mono {v : TypeVar} {d : Demand} (h : r.Demands v d) (hr : r'.Extends r) : r'.Demands v d :=
  h.imp fun _ hmem => hr.constraints.subset hmem

theorem DemandsBase.mono {v : TypeVar} {base : BaseKind} (h : r.DemandsBase v base) (hr : r'.Extends r) :
    r'.DemandsBase v base :=
  h.imp fun _ hdemands => hdemands.mono hr

theorem Uses.unique {t : Target} {usage usage' : ProcedureUsage} (h : r.Uses t usage) (h' : r.Uses t usage') :
    usage = usage' := by
  obtain ⟨i, rfl, hi⟩ := h
  obtain ⟨j, hj, hj'⟩ := h'
  cases hj
  exact Option.some.inj (hi.symm.trans hj')

theorem Uses.mono {t : Target} {usage : ProcedureUsage} (h : r.Uses t usage) (hr : r'.Extends r) :
    r'.Uses t usage := by
  obtain ⟨i, ht, hi⟩ := h
  obtain ⟨more, hmore⟩ := hr.procedures
  exact ⟨i, ht, hmore ▸ List.getElem?_append_left (List.getElem?_eq_some_iff.1 hi).1 ▸ hi⟩

theorem Reads.mono {t : Target} {type : TypeVar} (h : r.Reads t type) (hr : r'.Extends r) :
    r'.Reads t type := by
  obtain ⟨i, usage, ht, hi, htype⟩ := h
  obtain ⟨more, hmore⟩ := hr.globals
  exact ⟨i, usage, ht, hmore ▸ List.getElem?_append_left (List.getElem?_eq_some_iff.1 hi).1 ▸ hi, htype⟩

end Records

namespace Expr

/-- What is recorded for an expression at a place: the demands on its note and on those of the expressions
directly inside, and what its references stand for. -/
def Recorded (r : Records) (p : Place) : Expr TypeVar → Prop
  | .literal m value => r.DemandsBase m.note (DraftM.literalBase value)
  | .name .. => False
  | .localVar m n => p.locals.lookup n = some m.note
  | .global m target => r.Reads target m.note
  | .procedure m target =>
    ∃ usage, r.Uses target usage ∧ usage.kind = .reference ∧
      r.Demands m.note (.hasSignature usage.args usage.returns)
  | .invoke m target args =>
    ∃ usage, r.Uses target usage ∧ usage.args = args.map note ∧ usage.returns = m.note
  | .call m callee args => r.Demands callee.note (.hasSignature (args.map note) m.note)
  | .method m receiver n args =>
    ∃ called, r.Demands receiver.note (.hasMember n called) ∧
      r.Demands called (.hasSignature (receiver.note :: args.map note) m.note)
  | .closure m params _ info =>
    ∃ i, info = some i ∧ i.args.length = params.length ∧
      r.Demands m.note (.hasSignature i.args i.returns) ∧
      ∀ c ∈ i.captures.entries, p.locals.lookup c.1 = some c.2
  | .define m _ _ value => m.note = value.note
  | .declare .. => True
  | .assign _ target value => r.Demands target.note (.unify value.note)
  | .giveBack _ value => ∀ v, p.returns = some v → r.Demands v (.unify value.note)
  | .object m members =>
    (∀ e ∈ members, r.Demands m.note (.hasMember e.1 e.2.note)) ∧
      r.Demands m.note (.limitMembers (.ofNames (members.map (·.1))))
  | .array m elements =>
    ∃ element, r.Demands m.note (.hasElement element) ∧ ∀ e ∈ elements, r.Demands element (.unify e.note)
  | .repeated m value size => r.Demands m.note (.hasElement value.note) ∧ r.DemandsBase size.note .integer
  | .member m owner n => r.Demands owner.note (.hasMember n m.note)
  | .element m owner index =>
    r.Demands owner.note (.hasElement m.note) ∧ r.DemandsBase index.note .integer
  | .binary m op left right =>
    r.Demands left.note (.unify right.note) ∧
      if op.isArithmetic then r.Demands left.note .isNumeric ∧ m.note = left.note
      else if op.isComparison then r.Demands left.note .isNumeric ∧ r.DemandsBase m.note .boolean
      else if op.isEquality then r.DemandsBase m.note .boolean
      else r.DemandsBase left.note .boolean ∧ m.note = left.note
  | .unary m op operand =>
    m.note = operand.note ∧
      match op with
      | .negate => r.Demands operand.note .isNumeric
      | .not => r.DemandsBase operand.note .boolean
  | .variant m n payload => r.Demands m.note (.hasVariant n payload.note)
  | .unwrap m value n =>
    r.Demands value.note (.hasVariant n m.note) ∧
      ∀ v, p.returns = some v → r.Demands v (.variantsOfExcept value.note n)
  | .constant m value => m.note = value.note
  | .ifElse _ condition _ _ => r.DemandsBase condition.note .boolean
  | .matchValue _ value arms _ => ∀ arm ∈ arms, r.Demands value.note (.unify arm.1.note)
  | .matchVariant _ value arms otherwise =>
    (∀ arm ∈ arms, r.Demands value.note (.hasVariant arm.variant arm.payload)) ∧
      (otherwise = none → r.Demands value.note (.limitVariants (.ofNames (arms.map (·.variant)))))

end Expr
end Monomorph
