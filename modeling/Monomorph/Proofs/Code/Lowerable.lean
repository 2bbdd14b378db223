import Monomorph.Code.Lowering
import Monomorph.Proofs.Constant.Folding
import Monomorph.Proofs.Meaning.Programs
import Monomorph.Proofs.Solve.Formed

/-! # What can be lowered

Lowering fails where a reference is not solved or leads nowhere, where an assignment has no place to aim at, where
a closure lacks its types and where a receiver lacks the member that is called. Where there is nothing of the sort
(`Expr.Lowerable`), it fails only because an expression is not constant (`lower_decided`). Of what a check keeps,
this is so: everything is solved, and what is read is read from variables kept before
(`Program.check_lower_decided`). -/

namespace Monomorph

open Outcome

namespace Expr

/-- What lowering relies on at an expression, apart from the expressions inside. -/
def Lowerable (context : LowerContext) : Expr TypeVar → Prop
  | .name .. | .procedure .. => False
  | .global _ target => ∃ path i, target = .resolved path i ∧ ReadsKept context.symbols context.variants path i
  | .invoke _ target _ => ∃ path i, target = .resolved path i
  | .method _ receiver n _ => context.graph.HasMember receiver.note n
  | .closure _ _ _ info => info.isSome = true
  | .assign _ target _ => target.isPlace = true
  | _ => True

/-- All of these expressions can be lowered, at whatever place they stand. -/
abbrev AllLowerable (context : LowerContext) (nodes : List (Place × Expr TypeVar)) : Prop :=
  ∀ n ∈ nodes, n.2.Lowerable context

end Expr

/-- What is evaluated while lowering has a value or is not constant. -/
structure LowerContext.Evaluates (context : LowerContext) : Prop where
  lowerable : ∀ {e : Expr TypeVar} {p : Place},
    Expr.AllLowerable context (e.nodes p) → Decided (context.evaluate e)
  moduleVariable : ∀ {path i id v value rest}, globalVariant? context.symbols context.variants path i = some (id, v) →
    v.body = some (value :: rest) → Decided (context.evaluate value)

namespace LowerM

open Monomorph.Expr (AllLowerable)

/-- The computation fails only because an expression is not constant. -/
abbrev Succeeds {α : Type} (x : LowerM α) : Prop := FailsOnly LowerError.IsNotConstant x

variable {α : Type} {context : LowerContext} {p : Place}

/-! ### Steps -/

theorem modify_succeeds (f : Lowering → Lowering) : Succeeds (modify f) := .of_ok fun s => ⟨(), f s, rfl⟩

theorem get_succeeds : Succeeds get := .of_ok fun s => ⟨s, s, rfl⟩

theorem emit_succeeds (i : Instr) : Succeeds (emit i) := modify_succeeds _

theorem newSlot_succeeds (type : TypeVar) (isArgument : Bool) : Succeeds (newSlot type isArgument) :=
  .of_ok fun _ => ⟨_, _, rfl⟩

theorem nextVersion_succeeds (v : Version) : Succeeds (nextVersion v) := .of_ok fun _ => ⟨_, _, rfl⟩

theorem addConstant_succeeds (c : Constant) : Succeeds (addConstant c) := .of_ok fun _ => ⟨_, _, rfl⟩

theorem bind_succeeds (name : String) (v : Version) : Succeeds (LowerM.bind name v) := modify_succeeds _

theorem find_succeeds (name : String) : Succeeds (LowerState.find name) := get_succeeds.bind fun _ => .pure _

theorem emitInto_succeeds (type : TypeVar) (op : Op) (args : List Version) : Succeeds (emitInto type op args) :=
  (newSlot_succeeds _ _).bind fun _ => (emit_succeeds _).bind fun _ => .pure _

theorem emitInto_some_succeeds (type : TypeVar) (op : Op) (args : List Version) :
    Succeeds (return some (← emitInto type op args)) :=
  (emitInto_succeeds type op args).bind fun _ => .pure _

theorem own_succeeds (type : TypeVar) (value : Version) : Succeeds (own type value) := by
  refine get_succeeds.bind fun s => ?_
  dsimp only
  split
  · exact emitInto_succeeds _ _ _
  · exact .pure _

theorem evaluateConstant_succeeds {e : Expr TypeVar} (he : Decided (context.evaluate e)) :
    Succeeds (evaluateConstant context e) := by
  unfold evaluateConstant
  split
  · exact addConstant_succeeds _
  · exact .throw (he _ (by assumption))

theorem evaluateArms_succeeds (hcontext : context.Evaluates) {arms : List (Expr TypeVar × List (Expr TypeVar))}
    (harms : AllLowerable context (Expr.armValueNodes arms)) : Succeeds (evaluateArms context arms) := by
  induction arms with
  | nil => exact .pure _
  | cons arm arms ih =>
    obtain ⟨harm, harms⟩ := List.forall_mem_append.1 harms
    exact (evaluateConstant_succeeds (hcontext.lowerable harm)).bind fun _ => (ih harms).bind fun _ => .pure _

/-! ### Blocks and bodies -/

theorem inBlock_succeeds {x : LowerM α} (hx : Succeeds x) : Succeeds (inBlock x) :=
  get_succeeds.bind fun _ => (modify_succeeds _).bind fun _ => hx.bind fun _ => get_succeeds.bind fun _ =>
    (modify_succeeds _).bind fun _ => .pure _

theorem bindParams_succeeds (params : List (String × TypeVar)) : Succeeds (bindParams params) := by
  induction params with
  | nil => exact .pure _
  | cons param params ih => exact (newSlot_succeeds _ _).bind fun _ => (bind_succeeds _ _).bind fun _ => ih

theorem inBody_succeeds {params : List String} {args : List TypeVar} {x : LowerM Unit} (hx : Succeeds x) :
    Succeeds (inBody params args x) :=
  get_succeeds.bind fun _ => (modify_succeeds _).bind fun _ => (bindParams_succeeds _).bind fun _ =>
    hx.bind fun _ => get_succeeds.bind fun _ => (modify_succeeds _).bind fun _ => .pure _

theorem joinName_succeeds (arms : List (Row Version)) (name : String) (earlier : Version) :
    Succeeds (joinName arms name earlier) := by
  unfold joinName
  split
  · exact .pure _
  · split
    · exact .pure _
    · exact bind_succeeds _ _
  · exact (nextVersion_succeeds _).bind fun _ => (emit_succeeds _).bind fun _ => bind_succeeds _ _

theorem join_succeeds (arms : List (Row Version)) : Succeeds (join arms) := by
  refine get_succeeds.bind fun s => ?_
  induction s.names.entries with
  | nil => exact .pure _
  | cons entry entries ih => exact (joinName_succeeds _ _ _).bind fun _ => ih

/-! ### Parts of expressions -/

theorem resolved_succeeds {target : Target} {path : Path} {i : Nat} (h : target = .resolved path i) (span : Span) :
    Succeeds (resolved target span) := by
  subst h
  exact .pure _

theorem asValue_succeeds (type : TypeVar) {x : LowerM (Option Version)} (hx : Succeeds x) :
    Succeeds (asValue type x) := by
  refine hx.bind fun v => ?_
  cases v with
  | some v => exact .pure _
  | none => exact emitInto_succeeds _ _ _

theorem captureAll_succeeds (captures : List (String × TypeVar)) : Succeeds (captureAll captures) := by
  induction captures with
  | nil => exact .pure _
  | cons capture captures ih =>
    refine (find_succeeds _).bind fun v => ?_
    cases v with
    | some v => exact (modify_succeeds _).bind fun _ => ih.bind fun _ => .pure _
    | none => exact (emitInto_succeeds _ _ _).bind fun _ => ih.bind fun _ => .pure _

theorem memberType_succeeds {object : TypeVar} {name : String} (h : context.graph.HasMember object name)
    (span : Span) : Succeeds (memberType context object name span) := by
  obtain ⟨members, isOpen, order, type, hkind, hget⟩ := h
  unfold memberType
  simp only [hkind, hget]
  exact .pure _

theorem loadGlobal_succeeds (hcontext : context.Evaluates) {path : Path} {i : Nat}
    (h : ReadsKept context.symbols context.variants path i) (type : TypeVar) (span : Span) :
    Succeeds (loadGlobal context type path i span) := by
  obtain ⟨id, v, hglobal⟩ := h
  unfold loadGlobal
  simp only [hglobal]
  split
  · rename_i value rest hbody
    refine get_succeeds.bind fun s => ?_
    split
    · exact emitInto_succeeds _ _ _
    · exact (evaluateConstant_succeeds (hcontext.moduleVariable hglobal hbody)).bind fun _ =>
        (modify_succeeds _).bind fun _ => emitInto_succeeds _ _ _
  · exact emitInto_succeeds _ _ _

theorem shortCircuit_succeeds (type : TypeVar) (stop : Bool) {left right : LowerM Version} (hleft : Succeeds left)
    (hright : Succeeds right) : Succeeds (shortCircuit type stop left right) :=
  hleft.bind fun _ => (newSlot_succeeds _ _).bind fun _ => (addConstant_succeeds _).bind fun _ =>
    (inBlock_succeeds hright).bind fun _ => (nextVersion_succeeds _).bind fun _ => (emit_succeeds _).bind fun _ =>
      (nextVersion_succeeds _).bind fun _ => (emit_succeeds _).bind fun _ => .pure _

theorem unwrapVariant_succeeds (type : TypeVar) (value : Version) (name : String) :
    Succeeds (unwrapVariant type value name) :=
  (newSlot_succeeds _ _).bind fun _ => (emit_succeeds _).bind fun _ => .pure _

/-! ### Expressions -/

mutual

theorem expr_succeeds (hcontext : context.Evaluates) : (e : Expr TypeVar) → ∀ {p},
    AllLowerable context (e.nodes p) → Succeeds (expr context e)
  | .literal m value, _, _ => by
    rw [expr]
    exact emitInto_some_succeeds _ _ _
  | .name m path, _, h => (h _ List.mem_cons_self).elim
  | .localVar m name, _, _ => by
    rw [expr]
    refine (find_succeeds _).bind fun v => ?_
    cases v with
    | some v => exact .pure _
    | none => exact emitInto_some_succeeds _ _ _
  | .global m target, _, h => by
    obtain ⟨path, i, htarget, hkept⟩ := h _ List.mem_cons_self
    subst htarget
    rw [expr]
    exact (loadGlobal_succeeds hcontext hkept _ _).bind fun _ => .pure _
  | .procedure m target, _, h => (h _ List.mem_cons_self).elim
  | .invoke m target args, _, h => by
    obtain ⟨⟨path, i, htarget⟩, hargs⟩ := List.forall_mem_cons.1 h
    rw [expr]
    exact (resolved_succeeds htarget _).bind fun _ => (values_succeeds hcontext args hargs).bind fun _ =>
      emitInto_some_succeeds _ _ _
  | .call m callee args, _, h => by
    obtain ⟨hcallee, hargs⟩ := List.forall_mem_append.1 (List.forall_mem_cons.1 h).2
    rw [expr]
    exact (asValue_succeeds _ (expr_succeeds hcontext callee hcallee)).bind fun _ =>
      (values_succeeds hcontext args hargs).bind fun _ =>
      emitInto_some_succeeds _ _ _
  | .method m receiver name args, _, h => by
    obtain ⟨hmember, hparts⟩ := List.forall_mem_cons.1 h
    obtain ⟨hreceiver, hargs⟩ := List.forall_mem_append.1 hparts
    rw [expr]
    exact (asValue_succeeds _ (expr_succeeds hcontext receiver hreceiver)).bind fun _ =>
      (memberType_succeeds hmember _).bind fun _ => (emitInto_succeeds _ _ _).bind fun _ =>
        (values_succeeds hcontext args hargs).bind fun _ => emitInto_some_succeeds _ _ _
  | .closure m params body (some info), _, h => by
    rw [expr]
    exact (captureAll_succeeds _).bind fun _ =>
      (inBody_succeeds (exprs_succeeds hcontext body (List.forall_mem_cons.1 h).2)).bind fun _ =>
        (newSlot_succeeds _ _).bind fun _ => (emit_succeeds _).bind fun _ => .pure _
  | .closure m params body none, _, h => (Bool.false_ne_true (h _ List.mem_cons_self)).elim
  | .define m name isMutable value, _, h => by
    rw [expr]
    exact (asValue_succeeds _ (expr_succeeds hcontext value (List.forall_mem_cons.1 h).2)).bind fun _ =>
      (own_succeeds _ _).bind fun _ => (bind_succeeds _ _).bind fun _ => .pure _
  | .declare m name isMutable, _, _ => by
    rw [expr]
    exact (newSlot_succeeds _ _).bind fun _ => (bind_succeeds _ _).bind fun _ => .pure _
  | .assign m target value, _, h => by
    obtain ⟨hplace, hparts⟩ := List.forall_mem_cons.1 h
    obtain ⟨hvalue, htarget⟩ := List.forall_mem_append.1 hparts
    rw [expr]
    refine (asValue_succeeds _ (expr_succeeds hcontext value hvalue)).bind fun v => ?_
    cases target with
    | localVar n name =>
      refine (find_succeeds _).bind fun current => ?_
      cases current with
      | some current => exact (nextVersion_succeeds _).bind fun _ => (emit_succeeds _).bind fun _ =>
          (bind_succeeds _ _).bind fun _ => .pure _
      | none => exact (emit_succeeds _).bind fun _ => .pure _
    | member n owner name =>
      exact (asValue_succeeds _ (expr_succeeds hcontext owner (List.forall_mem_cons.1 htarget).2)).bind fun _ =>
        (emit_succeeds _).bind fun _ => .pure _
    | element n owner index =>
      obtain ⟨howner, hindex⟩ := List.forall_mem_append.1 (List.forall_mem_cons.1 htarget).2
      exact (asValue_succeeds _ (expr_succeeds hcontext owner howner)).bind fun _ =>
        (asValue_succeeds _ (expr_succeeds hcontext index hindex)).bind fun _ => (emit_succeeds _).bind fun _ =>
          .pure _
    | _ => exact (Bool.false_ne_true hplace).elim
  | .giveBack m value, _, h => by
    rw [expr]
    exact (asValue_succeeds _ (expr_succeeds hcontext value (List.forall_mem_cons.1 h).2)).bind fun _ =>
      (emit_succeeds _).bind fun _ => .pure _
  | .object m members, _, h => by
    rw [expr]
    exact (namedValues_succeeds hcontext members (List.forall_mem_cons.1 h).2).bind fun _ =>
      emitInto_some_succeeds _ _ _
  | .array m elements, _, h => by
    rw [expr]
    exact (values_succeeds hcontext elements (List.forall_mem_cons.1 h).2).bind fun _ =>
      emitInto_some_succeeds _ _ _
  | .repeated m value size, _, h => by
    obtain ⟨hvalue, hsize⟩ := List.forall_mem_append.1 (List.forall_mem_cons.1 h).2
    rw [expr]
    exact (asValue_succeeds _ (expr_succeeds hcontext value hvalue)).bind fun _ =>
      (asValue_succeeds _ (expr_succeeds hcontext size hsize)).bind fun _ => emitInto_some_succeeds _ _ _
  | .member m owner name, _, h => by
    rw [expr]
    exact (asValue_succeeds _ (expr_succeeds hcontext owner (List.forall_mem_cons.1 h).2)).bind fun _ =>
      emitInto_some_succeeds _ _ _
  | .element m owner index, _, h => by
    obtain ⟨howner, hindex⟩ := List.forall_mem_append.1 (List.forall_mem_cons.1 h).2
    rw [expr]
    exact (asValue_succeeds _ (expr_succeeds hcontext owner howner)).bind fun _ =>
      (asValue_succeeds _ (expr_succeeds hcontext index hindex)).bind fun _ => emitInto_some_succeeds _ _ _
  | .binary m op left right, _, h => by
    obtain ⟨hleft, hright⟩ := List.forall_mem_append.1 (List.forall_mem_cons.1 h).2
    have hleft := asValue_succeeds left.note (expr_succeeds hcontext left hleft)
    have hright := asValue_succeeds right.note (expr_succeeds hcontext right hright)
    cases op with
    | and => exact (shortCircuit_succeeds m.note false hleft hright).bind fun _ => .pure _
    | or => exact (shortCircuit_succeeds m.note true hleft hright).bind fun _ => .pure _
    | _ => exact hleft.bind fun _ => hright.bind fun _ => emitInto_some_succeeds _ _ _
  | .unary m op operand, _, h => by
    rw [expr]
    exact (asValue_succeeds _ (expr_succeeds hcontext operand (List.forall_mem_cons.1 h).2)).bind fun _ =>
      emitInto_some_succeeds _ _ _
  | .variant m name payload, _, h => by
    rw [expr]
    exact (asValue_succeeds _ (expr_succeeds hcontext payload (List.forall_mem_cons.1 h).2)).bind fun _ =>
      emitInto_some_succeeds _ _ _
  | .unwrap m value name, _, h => by
    rw [expr]
    exact (asValue_succeeds _ (expr_succeeds hcontext value (List.forall_mem_cons.1 h).2)).bind fun _ =>
      (unwrapVariant_succeeds _ _ _).bind fun _ => .pure _
  | .constant m value, _, h => by
    rw [expr]
    exact (evaluateConstant_succeeds (hcontext.lowerable (List.forall_mem_cons.1 h).2)).bind fun _ =>
      emitInto_some_succeeds _ _ _
  | .ifElse m condition yes no, _, h => by
    obtain ⟨hcondition, hbodies⟩ := List.forall_mem_append.1 (List.forall_mem_cons.1 h).2
    obtain ⟨hyes, hno⟩ := List.forall_mem_append.1 hbodies
    rw [expr]
    exact (asValue_succeeds _ (expr_succeeds hcontext condition hcondition)).bind fun _ =>
      (addConstant_succeeds _).bind fun _ =>
      (inBlock_succeeds (exprs_succeeds hcontext yes hyes)).bind fun _ =>
        (inBlock_succeeds (exprs_succeeds hcontext no hno)).bind fun _ =>
        (emit_succeeds _).bind fun _ => (join_succeeds _).bind fun _ => .pure _
  | .matchValue m value arms otherwise, _, h => by
    obtain ⟨hvalue, hparts⟩ := List.forall_mem_append.1 (List.forall_mem_cons.1 h).2
    obtain ⟨hconstants, hparts⟩ := List.forall_mem_append.1 hparts
    obtain ⟨harms, hotherwise⟩ := List.forall_mem_append.1 hparts
    rw [expr]
    exact (asValue_succeeds _ (expr_succeeds hcontext value hvalue)).bind fun _ =>
      (evaluateArms_succeeds hcontext hconstants).bind fun _ =>
      (valueArms_succeeds hcontext arms harms).bind fun _ =>
        (inBlock_succeeds (exprs_succeeds hcontext otherwise hotherwise)).bind fun _ =>
        (emit_succeeds _).bind fun _ => (join_succeeds _).bind fun _ => .pure _
  | .matchVariant m value arms (some otherwise), _, h => by
    obtain ⟨hvalue, hparts⟩ := List.forall_mem_append.1 (List.forall_mem_cons.1 h).2
    obtain ⟨harms, hotherwise⟩ := List.forall_mem_append.1 hparts
    rw [expr]
    exact (asValue_succeeds _ (expr_succeeds hcontext value hvalue)).bind fun _ =>
      (variantArms_succeeds hcontext arms harms).bind fun _ =>
      (inBlock_succeeds (exprs_succeeds hcontext otherwise hotherwise)).bind fun _ =>
        (emit_succeeds _).bind fun _ =>
        (join_succeeds _).bind fun _ => .pure _
  | .matchVariant m value arms none, _, h => by
    obtain ⟨hvalue, harms⟩ := List.forall_mem_append.1 (List.forall_mem_cons.1 h).2
    rw [expr]
    exact (asValue_succeeds _ (expr_succeeds hcontext value hvalue)).bind fun _ =>
      (variantArms_succeeds hcontext arms harms).bind fun _ =>
      (emit_succeeds _).bind fun _ => (join_succeeds _).bind fun _ => .pure _

theorem exprs_succeeds (hcontext : context.Evaluates) : (es : List (Expr TypeVar)) → ∀ {p},
    AllLowerable context (Expr.nodesOf p es) → Succeeds (exprs context es)
  | [], _, _ => .pure _
  | e :: rest, _, h => by
    obtain ⟨he, hrest⟩ := List.forall_mem_append.1 h
    exact (expr_succeeds hcontext e he).bind fun _ => exprs_succeeds hcontext rest hrest

theorem values_succeeds (hcontext : context.Evaluates) : (es : List (Expr TypeVar)) → ∀ {p},
    AllLowerable context (Expr.nodesOf p es) → Succeeds (values context es)
  | [], _, _ => .pure _
  | e :: rest, _, h => by
    obtain ⟨he, hrest⟩ := List.forall_mem_append.1 h
    exact (asValue_succeeds _ (expr_succeeds hcontext e he)).bind fun _ =>
      (values_succeeds hcontext rest hrest).bind fun _ => .pure _

theorem namedValues_succeeds (hcontext : context.Evaluates) : (es : List (String × Expr TypeVar)) → ∀ {p},
    AllLowerable context (Expr.namedNodes p es) → Succeeds (namedValues context es)
  | [], _, _ => .pure _
  | (_, e) :: rest, _, h => by
    obtain ⟨he, hrest⟩ := List.forall_mem_append.1 h
    exact (asValue_succeeds _ (expr_succeeds hcontext e he)).bind fun _ =>
      (namedValues_succeeds hcontext rest hrest).bind fun _ => .pure _

theorem valueArms_succeeds (hcontext : context.Evaluates) :
    (arms : List (Expr TypeVar × List (Expr TypeVar))) → ∀ {p},
    AllLowerable context (Expr.armBodyNodes p arms) → Succeeds (valueArms context arms)
  | [], _, _ => .pure _
  | (_, body) :: rest, _, h => by
    obtain ⟨hbody, hrest⟩ := List.forall_mem_append.1 h
    exact (inBlock_succeeds (exprs_succeeds hcontext body hbody)).bind fun _ =>
      (valueArms_succeeds hcontext rest hrest).bind fun _ => .pure _

theorem variantArms_succeeds (hcontext : context.Evaluates) :
    (arms : List (VariantArm TypeVar (List (Expr TypeVar)))) → ∀ {p},
    AllLowerable context (Expr.variantArmNodes p arms) → Succeeds (variantArms context arms)
  | [], _, _ => .pure _
  | ⟨_, some name, payload, body⟩ :: rest, _, h => by
    obtain ⟨hbody, hrest⟩ := List.forall_mem_append.1 h
    exact (newSlot_succeeds _ _).bind fun _ =>
      (inBlock_succeeds ((bind_succeeds _ _).bind fun _ => exprs_succeeds hcontext body hbody)).bind fun _ =>
        (variantArms_succeeds hcontext rest hrest).bind fun _ => .pure _
  | ⟨_, none, payload, body⟩ :: rest, _, h => by
    obtain ⟨hbody, hrest⟩ := List.forall_mem_append.1 h
    exact (inBlock_succeeds (exprs_succeeds hcontext body hbody)).bind fun _ =>
      (variantArms_succeeds hcontext rest hrest).bind fun _ => .pure _

end

/-! ### Programs -/

theorem procedureVariants_succeeds (hcontext : context.Evaluates) (path : Path) (params : List String)
    (variants : List Variant) (i : Nat)
    (hvariants : ∀ v ∈ variants, ∀ body, v.body = some body → AllLowerable context (Expr.nodesOf .isolated body)) :
    Succeeds (procedureVariants context path params i variants) := by
  induction variants generalizing i with
  | nil => exact .pure _
  | cons v variants ih =>
    obtain ⟨hv, hvariants⟩ := List.forall_mem_cons.1 hvariants
    rw [procedureVariants]
    split
    · exact ih _ hvariants
    · rename_i body hbody
      exact (inBody_succeeds (exprs_succeeds hcontext body (hv body hbody))).bind fun _ =>
        (ih _ hvariants).bind fun _ => .pure _

theorem procedures_succeeds (hcontext : context.Evaluates) (symbols : List Symbol) (id : Nat)
    (hvariants : ∀ k symbol, symbols[k]? = some symbol → symbol.declaration.isProcedure = true →
      ∀ v ∈ context.variants.ofSymbol (id + k), ∀ body, v.body = some body →
        AllLowerable context (Expr.nodesOf .isolated body)) :
    Succeeds (procedures context id symbols) := by
  induction symbols generalizing id with
  | nil => exact .pure _
  | cons symbol symbols ih =>
    have hrest := ih (id + 1) fun k symbol hsymbol => by
      rw [Nat.add_assoc, Nat.add_comm 1 k]
      exact hvariants (k + 1) symbol hsymbol
    rw [procedures]
    split
    · rename_i params hparams
      have hsymbol := hvariants 0 symbol rfl (Option.isSome_of_mem hparams)
      exact (procedureVariants_succeeds hcontext _ _ _ _ hsymbol).bind fun _ => hrest.bind fun _ => .pure _
    · exact (FailsOnly.pure _).bind fun _ => hrest.bind fun _ => .pure _

end LowerM

/-- A program whose kept bodies can be lowered is lowered, or an expression in it is not constant. -/
theorem lower_decided {context : LowerContext} (hcontext : context.Evaluates)
    (hvariants : ∀ id symbol, context.symbols.get? id = some symbol → symbol.declaration.isProcedure = true →
      ∀ v ∈ context.variants.ofSymbol id, ∀ body, v.body = some body →
        Expr.AllLowerable context (Expr.nodesOf .isolated body)) : Decided (lower context) := by
  have hsucceeds : LowerM.Succeeds (LowerM.procedures context 0 context.symbols.symbols.toList) :=
    LowerM.procedures_succeeds hcontext _ _ fun k symbol hsymbol => by
      rw [Nat.zero_add]
      exact hvariants k symbol (Array.getElem?_toList.symm.trans hsymbol)
  intro e he
  unfold lower at he
  split at he
  · cases he
  · rename_i hrun
    cases he
    exact hsucceeds.error hrun

/-! ### Checked programs -/

/-- What lowering relies on at a reference is that it is linked, at any other expression that it has the form. -/
theorem Expr.Formed.lowerable {table : SymbolTable} {w : Workspace} {evaluate : Evaluator} {e : Expr TypeVar}
    (h : e.Formed w.graph.HasMember) (hrefers : e.Refers (FitsVariant table [] w) (ReadsVariant table w)) :
    e.Lowerable ⟨table, w.variants, w.graph, evaluate⟩ := by
  cases e with
  | name | procedure => exact hrefers
  | global m target =>
    obtain ⟨path, i, htarget, id, symbol, v, hid, hsymbol, hkind, -, hv, -⟩ := hrefers
    exact ⟨path, i, htarget, id, v, globalVariant?_eq_some_iff.2 ⟨symbol, hid, hsymbol, hkind, hv⟩⟩
  | invoke m target args =>
    obtain ⟨path, i, htarget, -⟩ := hrefers
    exact ⟨path, i, htarget⟩
  | method | closure | assign => exact h
  | _ => trivial

theorem Expr.Lowerable.reads {context : LowerContext} {e : Expr TypeVar} (h : e.Lowerable context) :
    e.ReadsAs (ReadsKept context.symbols context.variants) := by
  cases e with
  | global => exact h
  | _ => trivial

namespace Program

/-- Folding with what is known of a program. -/
def folding (p : Program) : Evaluator := .folding p.symbols p.workspace.variants

/-- What is kept can be lowered, save that an expression may not be constant. -/
structure LowersUpToFolding (p : Program) : Prop where
  /-- The program is lowered, or an expression in it is not constant. -/
  lowers : (∃ m, lower (p.lowering p.folding) = .ok m) ∨
    ∃ what span, lower (p.lowering p.folding) = .error (.notConstant what span)
  /-- Nothing else that cannot be lowered stands in the body of any procedure. -/
  lowerable : ∀ {k v symbol params body}, p.workspace.variants.find? k = some v →
    p.symbols.get? k.symbol = some symbol → symbol.declaration.params? = some params → v.body = some body →
      Expr.AllLowerable (p.lowering p.folding) (Expr.nodesOf .isolated body)
  /-- Reads lead from one variable to another without end nowhere. -/
  ordered : p.workspace.variants.Ordered p.symbols
  /-- So a read is folded as the value it leads to, which never meets the read again. -/
  follows : ∀ {path i id v value rest}, globalVariant? p.symbols p.workspace.variants path i = some (id, v) →
    v.body = some (value :: rest) → ∀ m, p.folding (.global m (.resolved path i)) = p.folding value

theorem check_readable {p : Program} (hp : p.Grounded) (options : CheckOptions) :
    (p.check options).2.workspace.variants.Readable (p.check options).2.symbols where
  kept hv hbody n hn := by
    have hrefers := (check_linked hp options).linked hv hbody .isolated n hn
    obtain ⟨place, e⟩ := n
    cases e with
    | global m target =>
      obtain ⟨path, i, htarget, id, symbol, v, hid, hsymbol, hkind, -, hv, -⟩ := hrefers
      exact ⟨path, i, htarget, id, v, globalVariant?_eq_some_iff.2 ⟨symbol, hid, hsymbol, hkind, hv⟩⟩
    | _ => trivial
  ordered := (check_linked hp options).ordered

/-- All that a check keeps, of whatever program and with whatever errors, can be lowered up to folding. -/
theorem check_lower_decided {p : Program} (hp : p.Grounded) (options : CheckOptions) :
    (p.check options).2.LowersUpToFolding := by
  have hreadable := check_readable hp options
  have hlowerable {k v symbol params body} (hv : (p.check options).2.workspace.variants.find? k = some v)
      (hsymbol : (p.check options).2.symbols.get? k.symbol = some symbol)
      (hparams : symbol.declaration.params? = some params) (hbody : v.body = some body) :
      Expr.AllLowerable ((p.check options).2.lowering (p.check options).2.folding) (Expr.nodesOf .isolated body) := by
    obtain ⟨d, g, g', hsettles, hfinal⟩ := (check_accepted hp.fresh options hv).settles hsymbol hparams hbody
    exact fun n hn => (hsettles.formed hfinal .isolated n hn).lowerable
      ((check_linked hp options).linked hv hbody .isolated n hn)
  have hcontext : ((p.check options).2.lowering (p.check options).2.folding).Evaluates := by
    refine ⟨fun h => hreadable.folding_decided fun n hn => (h n hn).reads, fun hglobal hbody => ?_⟩
    obtain ⟨-, -, -, -, hv⟩ := globalVariant?_eq_some_iff.1 hglobal
    exact hreadable.folding_decided fun n hn => hreadable.kept hv hbody n (List.mem_append_left _ hn)
  refine ⟨?_, hlowerable, hreadable.ordered, fun hglobal hbody => hreadable.folding_global hglobal hbody⟩
  have hdecided : Decided (lower ((p.check options).2.lowering (p.check options).2.folding)) := by
    refine lower_decided hcontext fun id symbol hsymbol hprocedure v hv body hbody => ?_
    obtain ⟨i, hi, rfl⟩ := List.mem_iff_getElem.1 hv
    obtain ⟨params, hparams⟩ := Option.isSome_iff_exists.1 hprocedure
    exact hlowerable (k := ⟨id, i⟩) (List.getElem?_eq_getElem hi) hsymbol hparams hbody
  cases hrun : lower ((p.check options).2.lowering (p.check options).2.folding) with
  | ok m => exact .inl ⟨m, rfl⟩
  | error e =>
    obtain ⟨what, span, rfl⟩ := hdecided e hrun
    exact .inr ⟨what, span, rfl⟩

/-- A procedure that starts from an element of a module variable, whose value reads another one, and calls a member
of its argument. -/
def layering : Program :=
  let m : Mark Unit := ⟨.none, ()⟩
  let var (name : String) : Expr Unit := .name m (.single name)
  let number (n : Int64) : Expr Unit := .literal m (.integer n)
  ((((empty .modules).add ⟨.single "high", .none, .moduleVariable
    (.array m [var "low", .binary m .add (var "low") (number 1)])⟩).2.add
      ⟨.single "low", .none, .moduleVariable (number 1)⟩).2.add
        ⟨.single "main", .none, .procedure ["o"]
          [.define m "x" true (.element m (var "high") (number 0)),
            .assign m (var "x") (.method m (var "o") "next" [var "x"]),
            .giveBack m (.closure m [] [.giveBack m (var "x")] none)]⟩).2

/-- It is lowered, with the value that the two variables fold into. -/
theorem check_lower_decided_layering : layering.Grounded ∧ layering.checkedMain.LowersUpToFolding ∧
    (lower (layering.checkedMain.lowering layering.checkedMain.folding)).toOption.map
      (fun m => m.constants.values.toList.map Constant.text) = some ["[1, 2]"] := by
  have hgrounded : layering.Grounded :=
    add_grounded (add_grounded (add_grounded (empty_grounded _) (by trivial) (by exact nofun)) (by trivial)
      (by exact nofun)) (by trivial) nofun
  exact ⟨hgrounded, check_lower_decided hgrounded _, by cbv⟩

end Program

end Monomorph
