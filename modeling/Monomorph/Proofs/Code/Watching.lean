import Monomorph.Code.Lowering
import Monomorph.Proofs.Outcome

/-! # Lowering on two states compared

Lowering is the same whatever state it runs on, but for the ways in which that state does operations, finds and declares
locals, and does arms and closures. So where these compare, lowering compares (`LowerM.exprs_compares`). -/

namespace Monomorph

open Outcome LowerState

/-- All that the states do in ways of their own compares. -/
structure LowerState.Compares {σ τ : Type} [LowerState σ] [LowerState τ]
    (C : Comparison (LowerOn σ) (LowerOn τ)) : Prop where
  lift : ∀ {α : Type} (x : LowerM α), C.Holds Eq (lift x) (lift x)
  throw : ∀ {α : Type} (e : LowerError), C.Holds Eq (throw e : LowerOn σ α) (throw e : LowerOn τ α)
  find : ∀ name, C.Holds Eq (find name) (find name)
  declare : ∀ name v, C.Holds Eq (declare name v) (declare name v)
  inArm : ∀ {α : Type} {x : LowerOn σ α} {y : LowerOn τ α}, C.Holds Eq x y → C.Holds Eq (inArm x) (inArm y)
  inClosure : ∀ {α : Type} (captures : List String) {x : LowerOn σ α} {y : LowerOn τ α}, C.Holds Eq x y →
    C.Holds Eq (inClosure captures x) (inClosure captures y)

namespace LowerM

variable {σ τ : Type} [LowerState σ] [LowerState τ] {C : Comparison (LowerOn σ) (LowerOn τ)}

section parts

variable (h : Compares C)
include h

theorem emitInto_compares (type : TypeVar) (op : Op) (args : List Version) :
    C.Holds Eq (emitInto type op args) (emitInto type op args) :=
  C.bind_eq (h.lift _) fun _ => C.bind_eq (h.lift _) fun _ => C.pure rfl

/-- An operation whose result is the value of an expression. -/
theorem emitSome_compares (type : TypeVar) (op : Op) (args : List Version) :
    C.Holds Eq (do return some (← emitInto type op args)) (do return some (← emitInto type op args)) :=
  C.bind_eq (emitInto_compares h type op args) fun _ => C.pure rfl

theorem own_compares (type : TypeVar) (v : Version) : C.Holds Eq (own type v) (own type v) := by
  refine C.bind_eq (h.lift _) fun s => ?_
  dsimp only
  split
  · exact emitInto_compares h type .copy [v]
  · exact C.pure rfl

theorem evaluateConstant_compares (context : LowerContext) (e : Expr TypeVar) :
    C.Holds Eq (evaluateConstant context e) (evaluateConstant context e) := by
  unfold evaluateConstant
  cases context.evaluate e with
  | ok c => exact h.lift _
  | error e => exact h.throw e

theorem evaluateArms_compares (context : LowerContext) (arms : List (Expr TypeVar × List (Expr TypeVar))) :
    C.Holds Eq (evaluateArms context arms) (evaluateArms context arms) := by
  induction arms with
  | nil => exact C.pure rfl
  | cons arm arms ih =>
    exact C.bind_eq (evaluateConstant_compares h context arm.1) fun _ => C.bind_eq ih fun _ => C.pure rfl

theorem resolved_compares (target : Target) (span : Span) :
    C.Holds Eq (resolved target span) (resolved target span) := by
  cases target with
  | resolved path variant => exact C.pure rfl
  | pending i => exact h.throw _

theorem memberType_compares (context : LowerContext) (object : TypeVar) (name : String) (span : Span) :
    C.Holds Eq (memberType context object name span) (memberType context object name span) := by
  unfold memberType
  cases context.graph.kind object with
  | object members isOpen order =>
    dsimp only
    cases members.get? name with
    | some v => exact C.pure rfl
    | none => exact h.throw _
  | _ => exact h.throw _

theorem loadGlobal_compares (context : LowerContext) (type : TypeVar) (path : Path) (variant : Nat) (span : Span) :
    C.Holds Eq (loadGlobal context type path variant span) (loadGlobal context type path variant span) := by
  unfold loadGlobal
  cases globalVariant? context.symbols context.variants path variant with
  | none => exact h.throw _
  | some found =>
    obtain ⟨_, ⟨_, _, _ | _ | ⟨value, _⟩⟩⟩ := found
    · exact emitInto_compares h _ _ _
    · exact emitInto_compares h _ _ _
    · refine C.bind_eq (h.lift _) fun s => ?_
      cases s.hoisted.lookup (path, variant) with
      | some id => exact emitInto_compares h _ _ _
      | none =>
        exact C.bind_eq (evaluateConstant_compares h context value) fun _ => C.bind_eq (h.lift _) fun _ =>
          emitInto_compares h _ _ _

theorem unwrapVariant_compares (type : TypeVar) (v : Version) (name : String) :
    C.Holds Eq (unwrapVariant type v name) (unwrapVariant type v name) :=
  C.bind_eq (h.lift _) fun _ => C.bind_eq (h.lift _) fun _ => C.pure rfl

theorem joinName_compares (arms : List (Row Version)) (name : String) (earlier : Version) :
    C.Holds Eq (joinName arms name earlier) (joinName arms name earlier) := by
  unfold joinName
  split
  · exact C.pure rfl
  · split
    · exact C.pure rfl
    · exact h.lift _
  · exact C.bind_eq (h.lift _) fun _ => C.bind_eq (h.lift _) fun _ => h.lift _

theorem join_compares (arms : List (Row Version)) : C.Holds Eq (join arms) (join arms) := by
  refine C.bind_eq (h.lift _) fun s => ?_
  induction s.names.entries with
  | nil => exact C.pure rfl
  | cons entry entries ih => exact C.bind_eq (joinName_compares h arms entry.1 entry.2) fun _ => ih

theorem inBlock_compares {α : Type} {x : LowerOn σ α} {y : LowerOn τ α} (hx : C.Holds Eq x y) :
    C.Holds Eq (inBlock x) (inBlock y) :=
  C.bind_eq (h.lift _) fun _ => C.bind_eq (h.lift _) fun _ => C.bind_eq hx fun _ => C.bind_eq (h.lift _) fun _ =>
    C.bind_eq (h.lift _) fun _ => C.pure rfl

theorem asValue_compares (type : TypeVar) {x : LowerOn σ (Option Version)} {y : LowerOn τ (Option Version)}
    (hx : C.Holds Eq x y) : C.Holds Eq (asValue type x) (asValue type y) := by
  refine C.bind_eq hx fun v? => ?_
  cases v? with
  | some v => exact C.pure rfl
  | none => exact emitInto_compares h type (.load .unit) []

theorem shortCircuit_compares (type : TypeVar) (stop : Bool) {left right : LowerOn σ Version}
    {left' right' : LowerOn τ Version} (hleft : C.Holds Eq left left') (hright : C.Holds Eq right right') :
    C.Holds Eq (shortCircuit type stop left right) (shortCircuit type stop left' right') :=
  C.bind_eq hleft fun _ => C.bind_eq (h.lift _) fun _ => C.bind_eq (h.lift _) fun _ =>
    C.bind_eq (inBlock_compares h hright) fun _ => C.bind_eq (h.lift _) fun _ => C.bind_eq (h.lift _) fun _ =>
      C.bind_eq (h.lift _) fun _ => C.bind_eq (h.lift _) fun _ => C.pure rfl

theorem bindParams_compares (params : List (String × TypeVar)) :
    C.Holds Eq (bindParams params) (bindParams params) := by
  induction params with
  | nil => exact C.pure rfl
  | cons param params ih => exact C.bind_eq (h.lift _) fun v => C.bind_eq (h.declare param.1 v) fun _ => ih

theorem inBody_compares (params : List String) (args : List TypeVar) {x : LowerOn σ Unit} {y : LowerOn τ Unit}
    (hx : C.Holds Eq x y) : C.Holds Eq (inBody params args x) (inBody params args y) :=
  C.bind_eq (h.lift _) fun _ => C.bind_eq (h.lift _) fun _ => C.bind_eq (bindParams_compares h _) fun _ =>
    C.bind_eq hx fun _ => C.bind_eq (h.lift _) fun _ => C.bind_eq (h.lift _) fun _ => C.pure rfl

theorem captureAll_compares (captures : List (String × TypeVar)) :
    C.Holds Eq (captureAll captures) (captureAll captures) := by
  induction captures with
  | nil => exact C.pure rfl
  | cons capture captures ih =>
    refine C.bind_eq (h.find capture.1) fun v? => ?_
    cases v? with
    | some v =>
      exact C.bind_eq (h.lift _) fun _ => C.bind_eq (C.pure rfl) fun _ => C.bind_eq ih fun _ => C.pure rfl
    | none => exact C.bind_eq (emitInto_compares h _ _ _) fun _ => C.bind_eq ih fun _ => C.pure rfl

end parts

/-! ### Expressions -/

mutual

theorem expr_compares (h : Compares C) (context : LowerContext) : (e : Expr TypeVar) →
    C.Holds Eq (expr context e) (expr context e)
  | .literal .. => emitSome_compares h _ _ _
  | .name .. | .procedure .. | .closure _ _ _ none => h.throw _
  | .localVar m name => by
    refine C.bind_eq (h.find name) fun v? => ?_
    cases v? with
    | some v => exact C.pure rfl
    | none => exact emitSome_compares h _ _ _
  | .global m target =>
    C.bind_eq (resolved_compares h _ _) fun _ => C.bind_eq (loadGlobal_compares h _ _ _ _ _) fun _ =>
      C.pure rfl
  | .constant m value =>
    C.bind_eq (evaluateConstant_compares h context value) fun _ => emitSome_compares h _ _ _
  | .invoke m target args =>
    C.bind_eq (resolved_compares h _ _) fun _ => C.bind_eq (values_compares h context args) fun _ =>
      emitSome_compares h _ _ _
  | .call m callee args =>
    C.bind_eq (asValue_compares h _ (expr_compares h context callee)) fun _ =>
      C.bind_eq (values_compares h context args) fun _ => emitSome_compares h _ _ _
  | .method m receiver name args =>
    C.bind_eq (asValue_compares h _ (expr_compares h context receiver)) fun _ =>
      C.bind_eq (memberType_compares h _ _ _ _) fun _ => C.bind_eq (emitInto_compares h _ _ _) fun _ =>
        C.bind_eq (values_compares h context args) fun _ => emitSome_compares h _ _ _
  | .closure m params body (some info) =>
    C.bind_eq (captureAll_compares h _) fun _ =>
      C.bind_eq (h.inClosure _ (inBody_compares h _ _ (exprs_compares h context body))) fun _ =>
        C.bind_eq (h.lift _) fun _ => C.bind_eq (h.lift _) fun _ => C.pure rfl
  | .define m name _ value =>
    C.bind_eq (asValue_compares h _ (expr_compares h context value)) fun _ =>
      C.bind_eq (own_compares h _ _) fun _ => C.bind_eq (h.declare _ _) fun _ => C.pure rfl
  | .declare m name _ => C.bind_eq (h.lift _) fun _ => C.bind_eq (h.declare _ _) fun _ => C.pure rfl
  | .assign m target value => by
    have hvalue := asValue_compares h value.note (expr_compares h context value)
    cases target with
    | localVar t name =>
      refine C.bind_eq hvalue fun v => C.bind_eq (h.find name) fun v? => ?_
      cases v? with
      | some current =>
        exact C.bind_eq (h.lift _) fun _ => C.bind_eq (h.lift _) fun _ => C.bind_eq (h.lift _) fun _ => C.pure rfl
      | none => exact C.bind_eq (h.lift _) fun _ => C.pure rfl
    | member t owner name =>
      exact C.bind_eq hvalue fun _ => C.bind_eq (asValue_compares h _ (expr_compares h context owner)) fun _ =>
        C.bind_eq (h.lift _) fun _ => C.pure rfl
    | element t owner index =>
      exact C.bind_eq hvalue fun _ => C.bind_eq (asValue_compares h _ (expr_compares h context owner)) fun _ =>
        C.bind_eq (asValue_compares h _ (expr_compares h context index)) fun _ => C.bind_eq (h.lift _) fun _ =>
          C.pure rfl
    | global t target =>
      cases target with
      | pending | resolved => exact C.bind_eq hvalue fun _ => C.bind_eq (h.throw _) fun _ => C.pure rfl
    | _ => exact C.bind_eq hvalue fun _ => C.bind_eq (h.throw _) fun _ => C.pure rfl
  | .giveBack m value =>
    C.bind_eq (asValue_compares h _ (expr_compares h context value)) fun _ => C.bind_eq (h.lift _) fun _ =>
      C.pure rfl
  | .object m members => C.bind_eq (namedValues_compares h context members) fun _ => emitSome_compares h _ _ _
  | .array m elements => C.bind_eq (values_compares h context elements) fun _ => emitSome_compares h _ _ _
  | .repeated m value size =>
    C.bind_eq (asValue_compares h _ (expr_compares h context value)) fun _ =>
      C.bind_eq (asValue_compares h _ (expr_compares h context size)) fun _ => emitSome_compares h _ _ _
  | .member m owner name =>
    C.bind_eq (asValue_compares h _ (expr_compares h context owner)) fun _ => emitSome_compares h _ _ _
  | .element m owner index =>
    C.bind_eq (asValue_compares h _ (expr_compares h context owner)) fun _ =>
      C.bind_eq (asValue_compares h _ (expr_compares h context index)) fun _ => emitSome_compares h _ _ _
  | .binary m op left right => by
    have hleft := asValue_compares h left.note (expr_compares h context left)
    have hright := asValue_compares h right.note (expr_compares h context right)
    cases op with
    | and | or => exact C.bind_eq (shortCircuit_compares h m.note _ hleft hright) fun _ => C.pure rfl
    | _ => exact C.bind_eq hleft fun _ => C.bind_eq hright fun _ => emitSome_compares h _ _ _
  | .unary m op operand =>
    C.bind_eq (asValue_compares h _ (expr_compares h context operand)) fun _ => emitSome_compares h _ _ _
  | .variant m name payload =>
    C.bind_eq (asValue_compares h _ (expr_compares h context payload)) fun _ => emitSome_compares h _ _ _
  | .unwrap m value name =>
    C.bind_eq (asValue_compares h _ (expr_compares h context value)) fun _ =>
      C.bind_eq (unwrapVariant_compares h _ _ _) fun _ => C.pure rfl
  | .ifElse m condition yes no =>
    C.bind_eq (asValue_compares h _ (expr_compares h context condition)) fun _ => C.bind_eq (h.lift _) fun _ =>
      C.bind_eq (h.inArm (inBlock_compares h (exprs_compares h context yes))) fun _ =>
        C.bind_eq (h.inArm (inBlock_compares h (exprs_compares h context no))) fun _ =>
          C.bind_eq (h.lift _) fun _ => C.bind_eq (join_compares h _) fun _ => C.pure rfl
  | .matchValue m value arms otherwise =>
    C.bind_eq (asValue_compares h _ (expr_compares h context value)) fun _ =>
      C.bind_eq (evaluateArms_compares h context arms) fun _ =>
        C.bind_eq (valueArms_compares h context arms) fun _ =>
          C.bind_eq (h.inArm (inBlock_compares h (exprs_compares h context otherwise))) fun _ =>
            C.bind_eq (h.lift _) fun _ => C.bind_eq (join_compares h _) fun _ => C.pure rfl
  | .matchVariant m value arms (some otherwise) =>
    C.bind_eq (asValue_compares h _ (expr_compares h context value)) fun _ =>
      C.bind_eq (variantArms_compares h context arms) fun _ =>
        C.bind_eq (h.inArm (inBlock_compares h (exprs_compares h context otherwise))) fun _ =>
          C.bind_eq (h.lift _) fun _ => C.bind_eq (join_compares h _) fun _ => C.pure rfl
  | .matchVariant m value arms none =>
    C.bind_eq (asValue_compares h _ (expr_compares h context value)) fun _ =>
      C.bind_eq (variantArms_compares h context arms) fun _ =>
        C.bind_eq (h.lift _) fun _ => C.bind_eq (join_compares h _) fun _ => C.pure rfl

theorem exprs_compares (h : Compares C) (context : LowerContext) : (es : List (Expr TypeVar)) →
    C.Holds Eq (exprs context es) (exprs context es)
  | [] => C.pure rfl
  | e :: rest => C.bind_eq (expr_compares h context e) fun _ => exprs_compares h context rest

theorem values_compares (h : Compares C) (context : LowerContext) : (es : List (Expr TypeVar)) →
    C.Holds Eq (values context es) (values context es)
  | [] => C.pure rfl
  | e :: rest =>
    C.bind_eq (asValue_compares h _ (expr_compares h context e)) fun _ =>
      C.bind_eq (values_compares h context rest) fun _ => C.pure rfl

theorem namedValues_compares (h : Compares C) (context : LowerContext) : (es : List (String × Expr TypeVar)) →
    C.Holds Eq (namedValues context es) (namedValues context es)
  | [] => C.pure rfl
  | (_, e) :: rest =>
    C.bind_eq (asValue_compares h _ (expr_compares h context e)) fun _ =>
      C.bind_eq (namedValues_compares h context rest) fun _ => C.pure rfl

theorem valueArms_compares (h : Compares C) (context : LowerContext) :
    (arms : List (Expr TypeVar × List (Expr TypeVar))) → C.Holds Eq (valueArms context arms) (valueArms context arms)
  | [] => C.pure rfl
  | (_, body) :: rest =>
    C.bind_eq (h.inArm (inBlock_compares h (exprs_compares h context body))) fun _ =>
      C.bind_eq (valueArms_compares h context rest) fun _ => C.pure rfl

theorem variantArms_compares (h : Compares C) (context : LowerContext) :
    (arms : List (VariantArm TypeVar (List (Expr TypeVar)))) →
      C.Holds Eq (variantArms context arms) (variantArms context arms)
  | [] => C.pure rfl
  | ⟨_, some _, _, body⟩ :: rest =>
    C.bind_eq (h.lift _) fun _ => C.bind_eq (h.inArm (inBlock_compares h
        (C.bind_eq (h.declare _ _) fun _ => exprs_compares h context body))) fun _ =>
      C.bind_eq (variantArms_compares h context rest) fun _ => C.pure rfl
  | ⟨_, none, _, body⟩ :: rest =>
    C.bind_eq (h.inArm (inBlock_compares h (exprs_compares h context body))) fun _ =>
      C.bind_eq (variantArms_compares h context rest) fun _ => C.pure rfl

end

end LowerM
end Monomorph
