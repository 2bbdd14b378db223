import Mathlib.Logic.Basic
import Monomorph.Draft
import Monomorph.Proofs.Row

/-! # Expressions with their notes replaced

The shape of an expression is kept where every note in it is replaced (`Expr.map`). So are the usages of a draft where
their types are replaced (`Usages.mapVars`). -/

namespace Monomorph

variable {α β : Type}

def Mark.map (f : α → β) (m : Mark α) : Mark β := ⟨m.span, f m.note⟩

def ClosureInfo.map (f : α → β) (info : ClosureInfo α) : ClosureInfo β :=
  ⟨info.args.map f, f info.returns, info.captures.map f⟩

theorem ClosureInfo.map_id : ClosureInfo.map (id : α → α) = id := by
  funext info
  rw [map, List.map_id, Row.map_id]
  rfl

/-- The arm with its payload's note and its body replaced. -/
def VariantArm.map {γ δ : Type} (f : α → β) (f' : γ → δ) (arm : VariantArm α γ) : VariantArm β δ :=
  ⟨arm.variant, arm.binding, f arm.payload, f' arm.body⟩

namespace Expr

mutual

/-- The expression with all notes in it replaced. -/
def map (f : α → β) : Expr α → Expr β
  | .literal m value => .literal (m.map f) value
  | .name m path => .name (m.map f) path
  | .localVar m n => .localVar (m.map f) n
  | .global m target => .global (m.map f) target
  | .procedure m target => .procedure (m.map f) target
  | .invoke m target args => .invoke (m.map f) target (mapAll f args)
  | .call m callee args => .call (m.map f) (map f callee) (mapAll f args)
  | .method m receiver n args => .method (m.map f) (map f receiver) n (mapAll f args)
  | .closure m params body info => .closure (m.map f) params (mapAll f body) (info.map (ClosureInfo.map f))
  | .define m n isMutable value => .define (m.map f) n isMutable (map f value)
  | .declare m n isMutable => .declare (m.map f) n isMutable
  | .assign m target value => .assign (m.map f) (map f target) (map f value)
  | .giveBack m value => .giveBack (m.map f) (map f value)
  | .object m members => .object (m.map f) (mapNamed f members)
  | .array m elements => .array (m.map f) (mapAll f elements)
  | .repeated m value size => .repeated (m.map f) (map f value) (map f size)
  | .member m of n => .member (m.map f) (map f of) n
  | .element m of index => .element (m.map f) (map f of) (map f index)
  | .binary m op left right => .binary (m.map f) op (map f left) (map f right)
  | .unary m op operand => .unary (m.map f) op (map f operand)
  | .variant m n payload => .variant (m.map f) n (map f payload)
  | .unwrap m value n => .unwrap (m.map f) (map f value) n
  | .constant m value => .constant (m.map f) (map f value)
  | .ifElse m condition yes no => .ifElse (m.map f) (map f condition) (mapAll f yes) (mapAll f no)
  | .matchValue m value arms otherwise =>
    .matchValue (m.map f) (map f value) (mapArms f arms) (mapAll f otherwise)
  | .matchVariant m value arms (some otherwise) =>
    .matchVariant (m.map f) (map f value) (mapVariantArms f arms) (some (mapAll f otherwise))
  | .matchVariant m value arms none => .matchVariant (m.map f) (map f value) (mapVariantArms f arms) none

/-- The expressions with all notes in them replaced. -/
def mapAll (f : α → β) : List (Expr α) → List (Expr β)
  | [] => []
  | e :: rest => map f e :: mapAll f rest

/-- The members of an object with all notes in them replaced. -/
def mapNamed (f : α → β) : List (String × Expr α) → List (String × Expr β)
  | [] => []
  | (label, e) :: rest => (label, map f e) :: mapNamed f rest

/-- The arms of a match against constants with all notes in them replaced. -/
def mapArms (f : α → β) : List (Expr α × List (Expr α)) → List (Expr β × List (Expr β))
  | [] => []
  | (e, body) :: rest => (map f e, mapAll f body) :: mapArms f rest

/-- The arms of a match on variants with all notes in them replaced. -/
def mapVariantArms (f : α → β) : List (VariantArm α (List (Expr α))) → List (VariantArm β (List (Expr β)))
  | [] => []
  | ⟨tag, binding, payload, body⟩ :: rest => ⟨tag, binding, f payload, mapAll f body⟩ :: mapVariantArms f rest

end

variable (f : α → β)

@[simp] theorem mark_map (e : Expr α) : (e.map f).mark = e.mark.map f := by
  cases e with
  | matchVariant m value arms otherwise => cases otherwise <;> rfl
  | _ => rfl

@[simp] theorem note_map (e : Expr α) : (e.map f).note = f e.note := by rw [note, mark_map]; rfl

@[simp] theorem span_map (e : Expr α) : (e.map f).span = e.span := by rw [span, mark_map]; rfl

theorem mapAll_eq (es : List (Expr α)) : mapAll f es = es.map (map f) := by
  induction es with
  | nil => rfl
  | cons e es ih => rw [mapAll, ih, List.map_cons]

theorem notes_mapAll (es : List (Expr α)) : (mapAll f es).map note = (es.map note).map f := by
  simp [mapAll_eq, Function.comp_def]

theorem spans_mapAll (es : List (Expr α)) : (mapAll f es).map span = es.map span := by
  simp [mapAll_eq, Function.comp_def]

theorem names_mapNamed (es : List (String × Expr α)) : (mapNamed f es).map (·.1) = es.map (·.1) := by
  induction es with
  | nil => rfl
  | cons e es ih => rw [mapNamed, List.map_cons, List.map_cons, ih]

theorem mapVariantArms_eq (arms : List (VariantArm α (List (Expr α)))) :
    mapVariantArms f arms = arms.map (VariantArm.map f (mapAll f)) := by
  induction arms with
  | nil => rfl
  | cons arm arms ih => rw [mapVariantArms, ih, List.map_cons]; rfl

/-- The arms put together from their constants and bodies. -/
theorem mapArms_zip (values : List (Expr α)) (bodies : List (List (Expr α))) :
    mapArms f (values.zip bodies) = (mapAll f values).zip (bodies.map (mapAll f)) := by
  induction values generalizing bodies with
  | nil => rfl
  | cons e values ih =>
    cases bodies with
    | nil => rfl
    | cons body bodies => rw [List.zip_cons_cons, mapArms, ih, mapAll, List.map_cons, List.zip_cons_cons]

/-! ### Notes that are replaced by themselves -/

mutual

theorem map_id : (e : Expr α) → e.map id = e
  | .literal .. | .name .. | .localVar .. | .global .. | .procedure .. | .declare .. => rfl
  | .invoke m target args => congrArg (Expr.invoke m target) (mapAll_id args)
  | .call m callee args => congrArg₂ (Expr.call m) (map_id callee) (mapAll_id args)
  | .method m receiver n args => congrArg₂ (Expr.method m · n) (map_id receiver) (mapAll_id args)
  | .closure m params body info => by
    rw [map, mapAll_id body, ClosureInfo.map_id, Option.map_id]
    rfl
  | .define m n isMutable value => congrArg (Expr.define m n isMutable) (map_id value)
  | .assign m target value => congrArg₂ (Expr.assign m) (map_id target) (map_id value)
  | .giveBack m value => congrArg (Expr.giveBack m) (map_id value)
  | .object m members => congrArg (Expr.object m) (mapNamed_id members)
  | .array m elements => congrArg (Expr.array m) (mapAll_id elements)
  | .repeated m value size => congrArg₂ (Expr.repeated m) (map_id value) (map_id size)
  | .member m owner n => congrArg (Expr.member m · n) (map_id owner)
  | .element m owner index => congrArg₂ (Expr.element m) (map_id owner) (map_id index)
  | .binary m op left right => congrArg₂ (Expr.binary m op) (map_id left) (map_id right)
  | .unary m op operand => congrArg (Expr.unary m op) (map_id operand)
  | .variant m n payload => congrArg (Expr.variant m n) (map_id payload)
  | .unwrap m value n => congrArg (Expr.unwrap m · n) (map_id value)
  | .constant m value => congrArg (Expr.constant m) (map_id value)
  | .ifElse m condition yes no => by
    rw [map, map_id condition, mapAll_id yes, mapAll_id no]
    rfl
  | .matchValue m value arms otherwise => by
    rw [map, map_id value, mapArms_id arms, mapAll_id otherwise]
    rfl
  | .matchVariant m value arms (some otherwise) => by
    rw [map, map_id value, mapVariantArms_id arms, mapAll_id otherwise]
    rfl
  | .matchVariant m value arms none => by
    rw [map, map_id value, mapVariantArms_id arms]
    rfl

theorem mapAll_id : (es : List (Expr α)) → mapAll id es = es
  | [] => rfl
  | e :: rest => congrArg₂ List.cons (map_id e) (mapAll_id rest)

theorem mapNamed_id : (es : List (String × Expr α)) → mapNamed id es = es
  | [] => rfl
  | (n, e) :: rest => congrArg₂ (fun e rest => (n, e) :: rest) (map_id e) (mapNamed_id rest)

theorem mapArms_id : (arms : List (Expr α × List (Expr α))) → mapArms id arms = arms
  | [] => rfl
  | (e, body) :: rest => by rw [mapArms, map_id e, mapAll_id body, mapArms_id rest]

theorem mapVariantArms_id : (arms : List (VariantArm α (List (Expr α)))) → mapVariantArms id arms = arms
  | [] => rfl
  | ⟨tag, binding, payload, body⟩ :: rest => by
    rw [mapVariantArms, mapAll_id body, mapVariantArms_id rest]
    rfl

end

end Expr

/-! ### Usages -/

section usages

variable (f : TypeVar → TypeVar)

/-- The use of a procedure with all types in it replaced. -/
def ProcedureUsage.mapVars (usage : ProcedureUsage) : ProcedureUsage :=
  { usage with args := usage.args.map f, returns := f usage.returns }

/-- The use of a module variable with its type replaced. -/
def VariableUsage.mapVars (usage : VariableUsage) : VariableUsage := { usage with type := f usage.type }

/-- The uses with all types in them replaced. -/
def Usages.mapVars (usages : Usages) : Usages :=
  ⟨usages.procedures.map (ProcedureUsage.mapVars f), usages.globals.map (VariableUsage.mapVars f)⟩

end usages

theorem Demand.mapVars_id (d : Demand) : d.mapVars id = d := by
  cases d <;> simp [mapVars]

theorem ProcedureUsage.mapVars_id (usage : ProcedureUsage) : usage.mapVars id = usage := by
  rw [mapVars, List.map_id]
  rfl

theorem VariableUsage.mapVars_id (usage : VariableUsage) : usage.mapVars id = usage := rfl

theorem Usages.mapVars_id (usages : Usages) : usages.mapVars id = usages := by
  rw [mapVars, funext ProcedureUsage.mapVars_id, funext VariableUsage.mapVars_id]
  simp only [Array.map_id']

end Monomorph
