import Monomorph.Proofs.Code.Dominance
import Monomorph.Proofs.Meaning.Programs

/-! # Each version is defined once, and before it is read

The induction over expressions (`LowerM.expr_dominates`): whatever the expression and the state are, lowering assigns
each version once, and on every path through the code what an instruction reads is defined before it. The paths are
those of the shapes in the footprint of the expression.

For whole programs that gives two results about the body of every procedure, and of the closures in it at any depth:
`lower_singleAssignment`, that it is in single-assignment form, and `lower_definedBefore`, that definitions come
before uses. A version that nothing defines is left out of the latter. The check is there to refuse its reads, and
does not refuse all of them (`Program.lower_reads_undefined`). -/

namespace Monomorph

open Outcome

/-- Whether the expression is a declaration of a local without a value. -/
def Expr.isUnset : Expr TypeVar → Bool
  | .declare .. => true
  | _ => false

/-- There is a declaration without a value among the nodes only if `unset`. -/
abbrev Expr.UnsetOnlyIf (unset : Prop) (nodes : List (Place × Expr TypeVar)) : Prop :=
  ∀ n ∈ nodes, n.2.isUnset = true → unset

namespace LowerM

variable {unset : Prop}

/-! ### The induction -/

theorem mem_pair {u v w : Version} (hw : w ∈ [u, v]) : w = u ∨ w = v :=
  (List.mem_cons.1 hw).imp_right List.mem_singleton.1

mutual

theorem expr_dominates (context : LowerContext) : (e : Expr TypeVar) → (known : Set Version) → ∀ {p},
    Expr.UnsetOnlyIf unset (e.nodes p) → DominatesExpr unset e.footprint.branches known (expr context e)
  | .literal m value, _, _, _ => emitInto_some_dominates m.note (.load value) [] nofun nofun
  | .name .., _, _, _ => .throw _
  | .localVar m name, _, _, _ => localVar_dominates m.note name
  | .global m target, _, _, _ => by
    refine (resolved_dominates target m.span).bind fun p => ?_
    refine (loadGlobal_dominates context m.note p.1 p.2 m.span).bind fun v => ?_
    exact .pure_some (.inl rfl)
  | .procedure .., _, _, _ => .throw _
  | .invoke m target args, _, _, h => by
    refine (resolved_dominates target m.span).bind fun p => ?_
    refine (values_dominates context args _ (List.forall_mem_cons.1 h).2).bind_nil fun vs => ?_
    exact emitInto_some_dominates _ _ _ nofun fun v hv => .inl hv
  | .call m callee args, _, _, h => by
    obtain ⟨hcallee, hargs⟩ := List.forall_mem_append.1 (List.forall_mem_cons.1 h).2
    refine (asValue_dominates _ (expr_dominates context callee _ hcallee)).bind fun v => ?_
    refine (values_dominates context args _ hargs).bind_nil fun vs => ?_
    refine emitInto_some_dominates _ _ _ nofun fun w hw => ?_
    exact (List.mem_cons.1 hw).elim (fun heq => .inr (.inl heq)) .inl
  | .method m receiver name args, _, _, h => by
    obtain ⟨hreceiver, hargs⟩ := List.forall_mem_append.1 (List.forall_mem_cons.1 h).2
    refine (asValue_dominates _ (expr_dominates context receiver _ hreceiver)).bind fun object => ?_
    refine (memberType_dominates context receiver.note name m.span).bind fun type => ?_
    refine (emitInto_dominates type (.readMember name) [object] nofun ?_).bind fun called => ?_
    · exact fun v hv => .inr (.inl (List.mem_singleton.1 hv))
    refine (values_dominates context args _ hargs).bind_nil fun vs => ?_
    refine emitInto_some_dominates _ _ _ nofun fun w hw => ?_
    rcases List.mem_cons.1 hw with rfl | hw
    · exact .inr (.inl rfl)
    · rcases List.mem_cons.1 hw with rfl | hw
      · exact .inr (.inr (.inr (.inl rfl)))
      · exact .inl hw
  | .closure m params body (some info), _, _, h => by
    refine (captureAll_dominates info.captures.entries).bind fun captures => ?_
    exact closure_dominates (fun known => exprs_dominates context body known (List.forall_mem_cons.1 h).2)
      fun v hv => .inl hv
  | .closure _ _ _ none, _, _, _ => .throw _
  | .define m name _ value, _, _, h => by
    refine (asValue_dominates _ (expr_dominates context value _ (List.forall_mem_cons.1 h).2)).bind fun v => ?_
    exact (own_dominates m.note (.inl rfl)).bind fun w => (bind_dominates name (.inl rfl)).bind fun _ => .pure_absent
  | .declare m name _, _, _, h =>
    (newSlot_dominates m.note (h _ List.mem_cons_self rfl)).bind fun v =>
      (bind_dominates name (.inl rfl)).bind fun _ => .pure_absent
  | .assign _ target value, known, _, h => by
    obtain ⟨hvalue, htarget⟩ := List.forall_mem_append.1 (List.forall_mem_cons.1 h).2
    have hvalue := asValue_dominates value.note (expr_dominates context value known hvalue)
    have hthrow (e : LowerError) : DominatesExpr unset value.footprint.branches known
        (asValue value.note (expr context value) >>= fun _ => do throw e; return none) :=
      hvalue.bind_nil fun v => .throw_bind e
    cases target with
    | localVar t name => exact hvalue.bind fun v => assign_dominates name (.inl rfl)
    | member t object name =>
      have hobject (known : Set Version) := expr_dominates context object known (List.forall_mem_cons.1 htarget).2
      refine hvalue.bind fun v => (asValue_dominates _ (hobject _)).bind_nil fun o => ?_
      refine (emit_dominates (.writeMember name) [o, v] nofun fun w hw => ?_).bind fun _ => .pure_absent
      exact (mem_pair hw).imp_right .inl
    | element t array index =>
      obtain ⟨harray, hindex⟩ := List.forall_mem_append.1 (List.forall_mem_cons.1 htarget).2
      refine hvalue.bind fun v => (asValue_dominates _ (expr_dominates context array _ harray)).bind fun a => ?_
      refine (asValue_dominates _ (expr_dominates context index _ hindex)).bind_nil fun i => ?_
      refine (emit_dominates .writeElement [a, i, v] nofun fun w hw => ?_).bind fun _ => .pure_absent
      rcases List.mem_cons.1 hw with rfl | hw
      · exact .inr (.inl rfl)
      · exact (mem_pair hw).imp_right fun h => .inr (.inl h)
    | global t target =>
      cases target with
      | pending i => exact hthrow _
      | resolved path variant => exact hthrow _
    | _ => exact hthrow _
  | .giveBack _ value, _, _, h => by
    refine (asValue_dominates _ (expr_dominates context value _ (List.forall_mem_cons.1 h).2)).bind_nil fun v => ?_
    exact (emit_dominates .giveBack [v] nofun fun w hw => .inl (List.mem_singleton.1 hw)).bind fun _ => .pure_absent
  | .object m members, _, _, h =>
    (namedValues_dominates context members _ (List.forall_mem_cons.1 h).2).bind_nil fun vs =>
      emitInto_some_dominates _ _ _ nofun fun v hv => .inl hv
  | .array m elements, _, _, h =>
    (values_dominates context elements _ (List.forall_mem_cons.1 h).2).bind_nil fun vs =>
      emitInto_some_dominates _ _ _ nofun fun v hv => .inl hv
  | .repeated m value size, _, _, h => by
    obtain ⟨hvalue, hsize⟩ := List.forall_mem_append.1 (List.forall_mem_cons.1 h).2
    refine (asValue_dominates _ (expr_dominates context value _ hvalue)).bind fun v => ?_
    refine (asValue_dominates _ (expr_dominates context size _ hsize)).bind_nil fun n => ?_
    exact emitInto_some_dominates _ _ _ nofun fun w hw => (mem_pair hw).symm.imp_right .inl
  | .member m object name, _, _, h =>
    (asValue_dominates _ (expr_dominates context object _ (List.forall_mem_cons.1 h).2)).bind_nil fun o =>
      emitInto_some_dominates _ _ _ nofun fun w hw => .inl (List.mem_singleton.1 hw)
  | .element m array index, _, _, h => by
    obtain ⟨harray, hindex⟩ := List.forall_mem_append.1 (List.forall_mem_cons.1 h).2
    refine (asValue_dominates _ (expr_dominates context array _ harray)).bind fun a => ?_
    refine (asValue_dominates _ (expr_dominates context index _ hindex)).bind_nil fun i => ?_
    exact emitInto_some_dominates _ _ _ nofun fun w hw => (mem_pair hw).symm.imp_right .inl
  | .binary m op left right, known, _, h => by
    obtain ⟨hleft, hright⟩ := List.forall_mem_append.1 (List.forall_mem_cons.1 h).2
    have hleft := asValue_dominates left.note (expr_dominates context left known hleft)
    have hright := fun known => asValue_dominates right.note (expr_dominates context right known hright)
    cases op with
    | and => exact (shortCircuit_dominates m.note false hleft hright).bind_nil fun v => .pure_some (.inl rfl)
    | or => exact (shortCircuit_dominates m.note true hleft hright).bind_nil fun v => .pure_some (.inl rfl)
    | _ =>
      refine hleft.bind fun l => (hright _).bind_nil fun r => emitInto_some_dominates _ _ _ nofun fun w hw => ?_
      exact (mem_pair hw).symm.imp_right .inl
  | .unary m op operand, _, _, h =>
    (asValue_dominates _ (expr_dominates context operand _ (List.forall_mem_cons.1 h).2)).bind_nil fun v =>
      emitInto_some_dominates _ _ _ nofun fun w hw => .inl (List.mem_singleton.1 hw)
  | .variant m name payload, _, _, h =>
    (asValue_dominates _ (expr_dominates context payload _ (List.forall_mem_cons.1 h).2)).bind_nil fun v =>
      emitInto_some_dominates _ _ _ nofun fun w hw => .inl (List.mem_singleton.1 hw)
  | .unwrap m value name, _, _, h => by
    refine (asValue_dominates _ (expr_dominates context value _ (List.forall_mem_cons.1 h).2)).bind fun v => ?_
    exact (unwrapVariant_dominates m.note name (.inl rfl)).bind_nil fun w => .pure_some (.inl rfl)
  | .constant m value, _, _, _ =>
    (evaluateConstant_dominates context value).bind fun id =>
      emitInto_some_dominates m.note (.loadConstant id) [] nofun nofun
  | .ifElse _ condition yes no, _, _, h => by
    obtain ⟨hcondition, hbodies⟩ := List.forall_mem_append.1 (List.forall_mem_cons.1 h).2
    obtain ⟨hyes, hno⟩ := List.forall_mem_append.1 hbodies
    refine branch_dominates rfl (expr_dominates context condition _ hcondition) fun arm harm known => ?_
    rcases List.mem_cons.1 harm with rfl | harm
    · exact exprs_dominates context yes known hyes
    · obtain rfl := List.mem_singleton.1 harm
      exact exprs_dominates context no known hno
  | .matchValue _ value arms otherwise, _, _, h => by
    obtain ⟨hvalue, hparts⟩ := List.forall_mem_append.1 (List.forall_mem_cons.1 h).2
    obtain ⟨hbodies, hlast⟩ := List.forall_mem_append.1 (List.forall_mem_append.1 hparts).2
    refine branch_dominates rfl (expr_dominates context value _ hvalue) fun arm harm known => ?_
    rcases List.mem_append.1 harm with harm | harm
    · obtain ⟨arm, hmem, rfl⟩ := List.mem_map.1 harm
      exact valueArms_dominates context arms hbodies arm hmem known
    · obtain rfl := List.mem_singleton.1 harm
      exact exprs_dominates context otherwise known hlast
  | .matchVariant _ value arms (some otherwise), _, _, h => by
    obtain ⟨hvalue, hparts⟩ := List.forall_mem_append.1 (List.forall_mem_cons.1 h).2
    obtain ⟨hbodies, hlast⟩ := List.forall_mem_append.1 hparts
    refine branch_dominates rfl (expr_dominates context value _ hvalue) fun arm harm known => ?_
    rcases List.mem_append.1 harm with harm | harm
    · obtain ⟨arm, hmem, rfl⟩ := List.mem_map.1 harm
      exact variantArms_dominates context arms hbodies arm hmem known
    · obtain rfl := List.mem_singleton.1 harm
      exact exprs_dominates context otherwise known hlast
  | .matchVariant _ value arms none, _, _, h => by
    obtain ⟨hvalue, hbodies⟩ := List.forall_mem_append.1 (List.forall_mem_cons.1 h).2
    refine branch_dominates rfl (expr_dominates context value _ hvalue) fun arm harm known => ?_
    obtain ⟨arm, hmem, rfl⟩ := List.mem_map.1 harm
    exact variantArms_dominates context arms hbodies arm hmem known

theorem exprs_dominates (context : LowerContext) : (es : List (Expr TypeVar)) → (known : Set Version) → ∀ {p},
    Expr.UnsetOnlyIf unset (Expr.nodesOf p es) →
      DominatesBlock unset (Expr.footprints es).branches known (exprs context es)
  | [], _, _, _ => .pure_none
  | e :: rest, _, _, h => by
    obtain ⟨he, hrest⟩ := List.forall_mem_append.1 h
    exact (expr_dominates context e _ he).bind fun _ => exprs_dominates context rest _ hrest

theorem values_dominates (context : LowerContext) : (es : List (Expr TypeVar)) → (known : Set Version) → ∀ {p},
    Expr.UnsetOnlyIf unset (Expr.nodesOf p es) →
      DominatesList unset (Expr.footprints es).branches known (values context es)
  | [], _, _, _ => .pure fun _ hv => nomatch hv
  | e :: rest, _, _, h => by
    obtain ⟨he, hrest⟩ := List.forall_mem_append.1 h
    refine (asValue_dominates _ (expr_dominates context e _ he)).bind fun v => ?_
    refine (values_dominates context rest _ hrest).bind_nil fun vs => .pure fun w hw => ?_
    exact (List.mem_cons.1 hw).elim (fun heq => .inr (.inl heq)) .inl

theorem namedValues_dominates (context : LowerContext) : (es : List (String × Expr TypeVar)) →
    (known : Set Version) → ∀ {p}, Expr.UnsetOnlyIf unset (Expr.namedNodes p es) →
      DominatesList unset (Expr.namedFootprints es).branches known (namedValues context es)
  | [], _, _, _ => .pure fun _ hv => nomatch hv
  | (_, e) :: rest, _, _, h => by
    obtain ⟨he, hrest⟩ := List.forall_mem_append.1 h
    refine (asValue_dominates _ (expr_dominates context e _ he)).bind fun v => ?_
    refine (namedValues_dominates context rest _ hrest).bind_nil fun vs => .pure fun w hw => ?_
    exact (List.mem_cons.1 hw).elim (fun heq => .inr (.inl heq)) .inl

theorem valueArms_dominates (context : LowerContext) : (arms : List (Expr TypeVar × List (Expr TypeVar))) → ∀ {p},
    Expr.UnsetOnlyIf unset (Expr.armBodyNodes p arms) →
      ∀ arm ∈ arms, ∀ known, DominatesBlock unset (Expr.footprints arm.2).branches known (exprs context arm.2)
  | [], _, _ => List.forall_mem_nil _
  | (_, body) :: rest, _, h => by
    obtain ⟨hbody, hrest⟩ := List.forall_mem_append.1 h
    exact List.forall_mem_cons.2
      ⟨fun known => exprs_dominates context body known hbody, valueArms_dominates context rest hrest⟩

theorem variantArms_dominates (context : LowerContext) :
    (arms : List (VariantArm TypeVar (List (Expr TypeVar)))) → ∀ {p},
    Expr.UnsetOnlyIf unset (Expr.variantArmNodes p arms) →
      ∀ arm ∈ arms, ∀ known, DominatesBlock unset (Expr.footprints arm.body).branches known (exprs context arm.body)
  | [], _, _ => List.forall_mem_nil _
  | ⟨_, _, _, body⟩ :: rest, _, h => by
    obtain ⟨hbody, hrest⟩ := List.forall_mem_append.1 h
    exact List.forall_mem_cons.2
      ⟨fun known => exprs_dominates context body known hbody, variantArms_dominates context rest hrest⟩

end

end LowerM

/-! ### Bodies -/

/-- On every path from the start of the body, what an instruction reads came in with an argument or was defined on
the path before. The exception is the first version of a slot, if nothing in the body defines it and the expressions
that the body is lowered from declare a local without a value. -/
def DefinedBefore (es : List (Expr TypeVar)) (slots : Array Slot) (code : List Instr) : Prop :=
  ∀ {V : Type} {undefined : V} {i : Instr} {h : History V},
    Reaches undefined code (Expr.footprints es).branches [] i h → ∀ v ∈ i.reads,
      v ∈ argumentVersions slots ∨ v ∈ h.defined ∨
        v.version = 0 ∧ v ∉ definedIn code ∧ ∃ n ∈ Expr.nodesOf .isolated es, n.2.isUnset = true

namespace LowerM

variable {s s' : Lowering}

/-- The names that are visible at the start of a body are those of its arguments. -/
theorem bindParams_visible {params : List (String × TypeVar)} {u : Unit} (h : bindParams params s = .ok u s')
    (hs : ∀ v ∈ s.visible, v ∈ argumentVersions s.slots) : ∀ v ∈ s'.visible, v ∈ argumentVersions s'.slots := by
  induction params generalizing s with
  | nil =>
    obtain ⟨-, rfl⟩ := pure_eq_ok_iff.1 h
    exact hs
  | cons param params ih =>
    obtain ⟨v, s₁, hnew, h⟩ := Outcome.bind_eq_ok_iff.1 h
    obtain ⟨⟨⟩, s₂, hbind, h⟩ := Outcome.bind_eq_ok_iff.1 h
    obtain ⟨rfl, rfl⟩ := newSlot_eq_ok_iff.1 hnew
    obtain rfl := bind_eq_ok_iff.1 hbind
    refine ih h fun w hw => ?_
    rw [mem_argumentVersions, Array.getElem?_push]
    rcases Lowering.visible_insert rfl hw with rfl | hw
    · exact ⟨rfl, by rw [if_pos rfl]; rfl⟩
    · obtain ⟨hzero, hargument⟩ := mem_argumentVersions.1 (hs w hw)
      refine ⟨hzero, ?_⟩
      split
      · rfl
      · exact hargument

theorem exprs_lowered {context : LowerContext} {params : List String} {args : List TypeVar} {es : List (Expr TypeVar)}
    {slots : Array Slot} {code : List Instr} (h : inBody params args (exprs context es) s = .ok (slots, code) s') :
    AllSingle slots code := by
  have hes (known : Set Version) : DominatesBlock True _ known (exprs context es) :=
    exprs_dominates context es known (p := .isolated) fun _ _ _ => trivial
  exact inBody_single (fun known => (hes known).assigns) h

end LowerM

theorem BodyOf.definedBefore {es : List (Expr TypeVar)} {slots : Array Slot} {code : List Instr}
    (h : BodyOf es slots code) : DefinedBefore es slots code := by
  obtain ⟨context, params, args, s, s', hrun⟩ := h
  obtain ⟨s₁, s₂, hparams, hbody, rfl, rfl, -⟩ := LowerM.inBody_eq_ok_iff.1 hrun
  have hbound := LowerM.bindParams_bound hparams
  have hcode : s₂.code.toList = s₁.code.toList ++ s₂.code.toList := by
    rw [LowerM.bindParams_code hparams]
    rfl
  have hunset : Expr.UnsetOnlyIf (∃ n ∈ Expr.nodesOf .isolated es, n.2.isUnset = true)
      (Expr.nodesOf .isolated es) := fun n hn h => ⟨n, hn, h⟩
  have hlowers := LowerM.exprs_dominates context es ∅ hunset
  obtain ⟨⟨code, hcode', hassigned⟩, -⟩ := hlowers.assigns hbound nofun hbody
  obtain rfl := List.append_cancel_left (hcode.symm.trans hcode')
  intro V undefined i h hreach v hv
  rcases (hlowers.paths hbound nofun hbody hcode).reads hreach v hv with ((hvisible | hknown) | hblank) | hdefined
  · have hargument := LowerM.bindParams_visible hparams (by rintro w ⟨n, hw⟩; cases hw) v hvisible
    refine .inl (mem_argumentVersions.2 ?_)
    rw [hassigned.adds.arguments]
    exact mem_argumentVersions.1 hargument
  · exact hknown.elim
  · obtain ⟨hunset, hzero, -, -, hnowhere⟩ := hblank
    exact .inr (.inr ⟨hzero, hnowhere, hunset⟩)
  · exact .inr (.inl hdefined)

/-! ### Programs -/

/-- **Static single assignment.** Whatever the trees, the types and the evaluator are with which lowering
succeeds: the body of every procedure and of every closure in it, at any depth, is in single-assignment form. -/
theorem lower_singleAssignment {context : LowerContext} {m : Module} (h : lower context = .ok m) :
    ∀ p ∈ m.procedures, ∀ slots code, BodyIn p.slots p.body slots code → SingleAssignment slots code := by
  intro p hp
  obtain ⟨_, _, _, _, _, _, _, -, -, -, -, hfrom⟩ := loweredFrom_of_mem h hp
  obtain ⟨s, s', hrun, -⟩ := hfrom.code
  exact fun slots code hbody => (LowerM.exprs_lowered hrun slots code hbody).1

/-- A procedure with everything that makes versions out of their order: a capture, an arm that assigns and an
`and` whose result two arms give. -/
def branching : LowerContext :=
  let c : Expr TypeVar := .localVar default "c"
  let x : Expr TypeVar := .localVar default "x"
  let number (value : Int64) : Expr TypeVar := .literal default (.integer value)
  ⟨⟨#[⟨.single "main", default, .procedure ["c"] []⟩], .modules⟩,
    #[[⟨[default], default, some [.define default "x" true (number 1),
      .closure default ["y"] [.giveBack default x] (some ⟨[default], default, Row.empty.insert "x" default⟩),
      .ifElse default c [.assign default x (number 2)] [],
      .giveBack default (.binary default .and c c)]⟩]], default, fun _ => .error default⟩

/-- The assignment merges into a third version of `x`, the `and` into a third one of its result, and the closure
has slots of its own. -/
theorem lower_singleAssignment_branching : ∃ m, lower branching = .ok m ∧
    m.procedures.map (fun p => argumentVersions p.slots ++ definedIn p.body) =
      [[⟨0, 0⟩, ⟨1, 0⟩, ⟨2, 0⟩, ⟨3, 0⟩, ⟨1, 1⟩, ⟨1, 2⟩, ⟨4, 1⟩, ⟨4, 0⟩, ⟨4, 2⟩]] ∧
    ∀ p ∈ m.procedures, ∀ slots code, BodyIn p.slots p.body slots code → SingleAssignment slots code := by
  have hversions : (lower branching).toOption.map
      (·.procedures.map fun p => argumentVersions p.slots ++ definedIn p.body) =
      some [[⟨0, 0⟩, ⟨1, 0⟩, ⟨2, 0⟩, ⟨3, 0⟩, ⟨1, 1⟩, ⟨1, 2⟩, ⟨4, 1⟩, ⟨4, 0⟩, ⟨4, 2⟩]] := by
    cbv
  cases hm : lower branching with
  | ok m =>
    rw [hm] at hversions
    exact ⟨m, rfl, Option.some.inj hversions, lower_singleAssignment hm⟩
  | error e =>
    rw [hm] at hversions
    cases hversions

/-- **Definitions come before uses.** Whatever the trees, the types and the evaluator are with which lowering
succeeds: in the body of every procedure and of every closure in it, at any depth, what an instruction reads was
defined before on every path that gets there, if it is no argument and anything in the body defines it. What nothing
defines is the first version of a local that is declared without a value. -/
theorem lower_definedBefore {context : LowerContext} {m : Module} (h : lower context = .ok m) :
    ∀ p ∈ m.procedures, ∀ slots code, BodyIn p.slots p.body slots code →
      (∃ es, BodyOf es slots code) ∧ ∀ es, BodyOf es slots code → DefinedBefore es slots code := by
  intro p hp slots code hbody
  obtain ⟨_, _, _, _, _, _, _, -, -, -, -, hfrom⟩ := loweredFrom_of_mem h hp
  obtain ⟨s, s', hrun, -⟩ := hfrom.code
  obtain ⟨-, es, hes⟩ := LowerM.exprs_lowered hrun slots code hbody
  exact ⟨⟨es, hes⟩, fun _ => BodyOf.definedBefore⟩

/-- The assignment and the `and` are merged before they are read. -/
theorem lower_definedBefore_branching : ∃ m, lower branching = .ok m ∧
    m.procedures.map (fun p => definedIn p.body) =
      [[⟨1, 0⟩, ⟨2, 0⟩, ⟨3, 0⟩, ⟨1, 1⟩, ⟨1, 2⟩, ⟨4, 1⟩, ⟨4, 0⟩, ⟨4, 2⟩]] ∧
    ∀ p ∈ m.procedures, ∀ slots code, BodyIn p.slots p.body slots code →
      (∃ es, BodyOf es slots code) ∧ ∀ es, BodyOf es slots code → DefinedBefore es slots code := by
  have hversions : (lower branching).toOption.map (·.procedures.map fun p => definedIn p.body) =
      some [[⟨1, 0⟩, ⟨2, 0⟩, ⟨3, 0⟩, ⟨1, 1⟩, ⟨1, 2⟩, ⟨4, 1⟩, ⟨4, 0⟩, ⟨4, 2⟩]] := by
    cbv
  cases hm : lower branching with
  | ok m =>
    rw [hm] at hversions
    exact ⟨m, rfl, Option.some.inj hversions, lower_definedBefore hm⟩
  | error e =>
    rw [hm] at hversions
    cases hversions

namespace Program

/-- In one arm, `x` is assigned and then declared anew without a value, and read. -/
def redeclaring : Program :=
  let m : Mark Unit := ⟨.none, ()⟩
  let x : Expr Unit := .name m (.single "x")
  let number (value : Int64) : Expr Unit := .literal m (.integer value)
  ((empty .modules).add ⟨.single "main", .none, .procedure ["c"]
    [.declare m "x" true,
      .ifElse m (.name m (.single "c")) [.assign m x (number 1), .declare m "x" true, .giveBack m x]
        [.giveBack m (number 0)]]⟩).2

/-- It is accepted and lowered, and a path through the first arm gives back what nothing has defined. -/
theorem lower_reads_undefined : (redeclaring.check ⟨[.single "main"], false⟩).1 = [] ∧
    ∃ m p, lower (redeclaring.checkedMain.lowering .refusing) = .ok m ∧ p ∈ m.procedures ∧
      ∃ h : History Unit, Reaches () p.body [.branch [[], []]] [] (.op .giveBack [⟨3, 0⟩] none) h ∧
        ⟨3, 0⟩ ∉ argumentVersions p.slots ∧ ⟨3, 0⟩ ∉ h.defined := by
  have hlowered : (lower (redeclaring.checkedMain.lowering .refusing)).toOption.map
      (·.procedures.map fun p => (argumentVersions p.slots, p.body)) =
      some [([⟨0, 0⟩], [.branchValue ⟨0, 0⟩
        [(0, [.op (.load (.integer 1)) [] (some ⟨2, 0⟩), .op .copy [⟨2, 0⟩] (some ⟨1, 1⟩),
          .op .giveBack [⟨3, 0⟩] none])]
        [.op (.load (.integer 0)) [] (some ⟨4, 0⟩), .op .giveBack [⟨4, 0⟩] none]])] := by
    cbv
  refine ⟨by cbv, ?_⟩
  cases hm : lower (redeclaring.checkedMain.lowering .refusing) with
  | ok m =>
    rw [hm] at hlowered
    obtain ⟨p, hp, hbody⟩ := List.map_eq_singleton_iff.1 (Option.some.inj hlowered)
    obtain ⟨harguments, hcode⟩ := Prod.mk.inj hbody
    refine ⟨m, p, rfl, hp ▸ List.mem_singleton.2 rfl, [⟨⟨1, 1⟩, (), false⟩, ⟨⟨2, 0⟩, (), false⟩], ?_, ?_, ?_⟩
    · rw [hcode]
      refine .inside 0 () rfl rfl ?_
      exact .later (.define () (by simp) (by simp) (.nil _))
        (.later (.define () (by simp) (by simp) (.nil _)) (.here _))
    · rw [harguments]
      decide
    · rintro ⟨d, hd, hv⟩
      rcases List.mem_cons.1 hd with rfl | hd
      · cases hv
      · obtain rfl := List.mem_singleton.1 hd
        cases hv
  | error e =>
    rw [hm] at hlowered
    cases hlowered

end Program
end Monomorph
