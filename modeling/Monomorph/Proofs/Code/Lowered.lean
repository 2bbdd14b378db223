import Monomorph.Proofs.Code.Blocks

/-! # Every expression is lowered by a step

`LowerM.expr_lowers`: lowering an expression is a step with the footprint of the expression, whatever the
expression and the state are. So all that `Step` promises holds of every body: visible names live in slots
of their own, code defines only new versions, and an assignment that the footprint does not list as lost
is carried by the version that the name stands for afterwards. -/

namespace Monomorph.LowerM

open Outcome

/-! ### Bodies -/

theorem bindParams_lowers (params : List (String × TypeVar)) :
    LowersBlock ⟨params.map (·.1), [], [], []⟩ (bindParams params) := by
  induction params with
  | nil => exact .pure_none _ rfl
  | cons param params ih =>
    obtain ⟨name, type⟩ := param
    have hone : LowersBlock (.declare name) (newSlot type true >>= LowerM.bind name) := by
      intro s u s' hs h
      obtain ⟨w, s₁, hnew, hbind⟩ := Outcome.bind_eq_ok_iff.1 h
      obtain ⟨rfl, rfl⟩ := newSlot_eq_ok_iff.1 hnew
      obtain rfl := bind_eq_ok_iff.1 hbind
      exact ⟨⟨[], by simp, step_bindNew hs name rfl rfl fun _ h => (nomatch h)⟩,
        fun _ h => (nomatch h)⟩
    have hseq : (Footprint.declare name).seq ⟨params.map (·.1), [], [], []⟩ =
        ⟨((name, type) :: params).map (·.1), [], [], []⟩ := by
      simp [Footprint.seq, Footprint.declare]
    intro s u s' hs h
    obtain ⟨w, s₁, hnew, h⟩ := Outcome.bind_eq_ok_iff.1 h
    obtain ⟨⟨⟩, s₂, hbind, h⟩ := Outcome.bind_eq_ok_iff.1 h
    obtain ⟨hlowers, -⟩ := hone hs (Outcome.bind_eq_ok_iff.2 ⟨w, s₁, hnew, hbind⟩)
    obtain ⟨hlowers', -⟩ := ih hlowers.separate h
    exact ⟨hseq ▸ hlowers.trans hlowers', fun _ h => (nomatch h)⟩

/-- The state at the start of a body, before its parameters. -/
def bodyStart (s : Lowering) : Lowering := { s with slots := #[], code := #[], names := .empty }

theorem bodyStart_separate (s : Lowering) : (bodyStart s).Separate :=
  ⟨fun h => (nomatch h), fun h => (nomatch h)⟩

theorem inBody_eq_ok_iff {params : List String} {args : List TypeVar} {x : LowerM Unit}
    {s s' : Lowering} {slots : Array Slot} {code : List Instr} :
    inBody params args x s = .ok (slots, code) s' ↔
      ∃ s₁ s₂, bindParams (params.zip args) (bodyStart s) = .ok () s₁ ∧ x s₁ = .ok () s₂ ∧
        s₂.slots = slots ∧ s₂.code.toList = code ∧
        { s₂ with slots := s.slots, code := s.code, names := s.names } = s' := by
  unfold inBody
  simp only [Outcome.bind_eq_ok_iff, present_eq_ok_iff, change_eq_ok_iff, pure_eq_ok_iff]
  constructor
  · rintro ⟨_, _, ⟨rfl, rfl⟩, _, _, rfl, ⟨⟩, s₁, hparams, ⟨⟩, s₂, hx, _, _, ⟨rfl, rfl⟩, _, _, rfl, heq,
      rfl⟩
    cases heq
    exact ⟨s₁, _, hparams, hx, rfl, rfl, rfl⟩
  · rintro ⟨s₁, s₂, hparams, hx, rfl, rfl, rfl⟩
    exact ⟨s, s, ⟨rfl, rfl⟩, (), _, rfl, (), s₁, hparams, (), s₂, hx, s₂, s₂, ⟨rfl, rfl⟩, (), _, rfl,
      rfl, rfl⟩

/-- The body of a closure is lowered apart from the body around. -/
theorem inBody_lowers {fp : Footprint} {x : LowerM Unit} (params : List String)
    (args : List TypeVar) (hx : LowersBlock fp x) : LowersBlock .none (inBody params args x) := by
  intro s ⟨slots, code⟩ s' hs h
  obtain ⟨s₁, s₂, hparams, hx', -, -, rfl⟩ := inBody_eq_ok_iff.1 h
  obtain ⟨hlowers, -⟩ := bindParams_lowers _ (bodyStart_separate s) hparams
  obtain ⟨⟨_, -, hstep⟩, -⟩ := hx hlowers.separate hx'
  obtain ⟨_, -, hstart⟩ := hlowers
  obtain ⟨more, hmore⟩ := hstart.constants
  obtain ⟨more', hmore'⟩ := hstep.constants
  refine ⟨⟨[], by simp, .of_names_eq hs rfl (Nat.le_refl _) (Lowering.owns_congr rfl).2
    ⟨more ++ more', ?_⟩ rfl rfl fun _ h => (nomatch h)⟩, fun _ h => (nomatch h)⟩
  change s₂.constants.values.toList = _
  rw [hmore', hmore, List.append_assoc]
  rfl

/-! ### Expressions -/

theorem newSlot_emit_lowers {type : TypeVar} {i : Version → Instr}
    (hdefines : ∀ v, (i v).defines = [v]) (hcount : ∀ v, branchCount [i v] = 0) :
    LowersExpr .none (do
      let dest ← newSlot type false
      emit (i dest)
      return some dest) := by
  intro s r s' hs h
  obtain ⟨w, s₁, hnew, h⟩ := Outcome.bind_eq_ok_iff.1 h
  obtain ⟨⟨⟩, s₂, hemit, h⟩ := Outcome.bind_eq_ok_iff.1 h
  obtain ⟨rfl, rfl⟩ := pure_eq_ok_iff.1 h
  obtain ⟨rfl, rfl⟩ := newSlot_eq_ok_iff.1 hnew
  obtain rfl := emit_eq_ok_iff.1 hemit
  refine ⟨⟨_, Array.toList_push, step_newSlot hs rfl (hdefines _) (hcount _)⟩, ?_⟩
  rintro _ ⟨⟩
  exact ⟨(Lowering.owns_push rfl).2 (.inr ⟨rfl, Nat.one_pos⟩), .inl (Nat.le_refl _)⟩

theorem resolved_lowers (target : Target) (span : Span) :
    LowersBlock .none (resolved target span) := by
  cases target with
  | pending i => exact .throw _
  | resolved path variant => exact .pure_none _ rfl

theorem memberType_lowers (context : LowerContext) (object : TypeVar) (name : String) (span : Span) :
    LowersBlock .none (memberType context object name span) := by
  unfold memberType
  split
  · split
    · exact .pure_none _ rfl
    · exact .throw _
  · exact .throw _

/-! ### The induction -/

mutual

theorem expr_lowers (context : LowerContext) :
    (e : Expr TypeVar) → LowersExpr e.footprint (expr context e)
  | .literal m value => emitInto_some_lowers ..
  | .name m path => .throw _
  | .localVar m name => localVar_lowers m.note name
  | .global m target => by
    refine (resolved_lowers target m.span).none_bind fun p => ?_
    exact (loadGlobal_lowers context m.note p.1 p.2 m.span).bind_pure fun _ => rfl
  | .procedure m target => .throw _
  | .invoke m target args => by
    refine (resolved_lowers target m.span).none_bind fun p => ?_
    exact (values_lowers context args).bind_none fun vs => emitInto_some_lowers ..
  | .call m callee args => by
    refine (asValue_lowers _ (expr_lowers context callee)).bind fun v => ?_
    exact (values_lowers context args).bind_none fun vs => emitInto_some_lowers ..
  | .method m receiver name args => by
    refine (asValue_lowers _ (expr_lowers context receiver)).bind fun object => ?_
    refine (memberType_lowers context receiver.note name m.span).none_bind fun type => ?_
    refine (emitInto_lowers type (.readMember name) [object]).none_bind fun called => ?_
    exact (values_lowers context args).bind_none fun vs => emitInto_some_lowers ..
  | .closure m params body (some info) => by
    refine (captureAll_lowers info.captures.entries).none_bind fun captures => ?_
    refine (inBody_lowers params info.args (exprs_lowers context body)).none_bind fun p => ?_
    exact newSlot_emit_lowers (fun _ => rfl) fun _ => rfl
  | .closure m params body none => .throw _
  | .define m name isMutable value =>
    define_lowers m.note name (asValue_lowers _ (expr_lowers context value))
  | .declare m name isMutable => declare_lowers m.note name
  | .assign m target value => by
    have hvalue := asValue_lowers value.note (expr_lowers context value)
    cases target with
    | localVar t name => exact hvalue.bind fun v => assign_lowers name v
    | member t object name =>
      refine hvalue.bind fun v => ?_
      refine (asValue_lowers _ (expr_lowers context object)).bind_none fun o => ?_
      exact (emit_lowers rfl rfl rfl).none_bind fun _ => .pure_none _ rfl
    | element t array index =>
      refine hvalue.bind fun v => ?_
      refine (asValue_lowers _ (expr_lowers context array)).bind fun a => ?_
      refine (asValue_lowers _ (expr_lowers context index)).bind_none fun i => ?_
      exact (emit_lowers rfl rfl rfl).none_bind fun _ => .pure_none _ rfl
    | global t target =>
      cases target with
      | pending i => exact hvalue.bind_none fun v => LowersTo.throw_bind _
      | resolved path variant => exact hvalue.bind_none fun v => LowersTo.throw_bind _
    | _ => exact hvalue.bind_none fun v => LowersTo.throw_bind _
  | .giveBack m value => by
    refine (asValue_lowers _ (expr_lowers context value)).bind_none fun v => ?_
    exact (emit_lowers rfl rfl rfl).none_bind fun _ => .pure_none _ rfl
  | .object m members =>
    (namedValues_lowers context members).bind_none fun vs => emitInto_some_lowers ..
  | .array m elements =>
    (values_lowers context elements).bind_none fun vs => emitInto_some_lowers ..
  | .repeated m value size => by
    refine (asValue_lowers _ (expr_lowers context value)).bind fun v => ?_
    exact (asValue_lowers _ (expr_lowers context size)).bind_none fun n => emitInto_some_lowers ..
  | .member m object name =>
    (asValue_lowers _ (expr_lowers context object)).bind_none fun o => emitInto_some_lowers ..
  | .element m array index => by
    refine (asValue_lowers _ (expr_lowers context array)).bind fun a => ?_
    exact (asValue_lowers _ (expr_lowers context index)).bind_none fun i => emitInto_some_lowers ..
  | .binary m op left right => by
    have hleft := asValue_lowers left.note (expr_lowers context left)
    have hright := asValue_lowers right.note (expr_lowers context right)
    cases op with
    | and => exact (shortCircuit_lowers m.note false hleft.block hright).bind_pure fun _ => rfl
    | or => exact (shortCircuit_lowers m.note true hleft.block hright).bind_pure fun _ => rfl
    | _ => exact hleft.bind fun l => hright.bind_none fun r => emitInto_some_lowers ..
  | .unary m op operand =>
    (asValue_lowers _ (expr_lowers context operand)).bind_none fun v => emitInto_some_lowers ..
  | .variant m name payload =>
    (asValue_lowers _ (expr_lowers context payload)).bind_none fun v => emitInto_some_lowers ..
  | .unwrap m value name =>
    (asValue_lowers _ (expr_lowers context value)).bind fun v =>
      (unwrapVariant_lowers m.note v name).bind_pure fun _ => rfl
  | .constant m value =>
    (evaluateConstant_lowers context value).none_bind fun id => emitInto_some_lowers ..
  | .ifElse m condition yes no => by
    refine branch_lowers rfl (expr_lowers context condition) fun arm harm => ?_
    rcases List.mem_cons.1 harm with rfl | harm
    · exact exprs_lowers context yes
    · obtain rfl := List.mem_singleton.1 harm
      exact exprs_lowers context no
  | .matchValue m value arms otherwise => by
    refine branch_lowers rfl (expr_lowers context value) fun arm harm => ?_
    rcases List.mem_append.1 harm with harm | harm
    · obtain ⟨arm, hmem, rfl⟩ := List.mem_map.1 harm
      exact valueArms_lowers context arms arm hmem
    · obtain rfl := List.mem_singleton.1 harm
      exact exprs_lowers context otherwise
  | .matchVariant m value arms (some otherwise) => by
    refine branch_lowers rfl (expr_lowers context value) fun arm harm => ?_
    rcases List.mem_append.1 harm with harm | harm
    · obtain ⟨arm, hmem, rfl⟩ := List.mem_map.1 harm
      exact variantArms_lowers context arms arm hmem
    · obtain rfl := List.mem_singleton.1 harm
      exact exprs_lowers context otherwise
  | .matchVariant m value arms none => by
    refine branch_lowers rfl (expr_lowers context value) fun arm harm => ?_
    obtain ⟨arm, hmem, rfl⟩ := List.mem_map.1 harm
    exact variantArms_lowers context arms arm hmem

theorem exprs_lowers (context : LowerContext) :
    (es : List (Expr TypeVar)) → LowersBlock (Expr.footprints es) (exprs context es)
  | [] => .pure_none _ rfl
  | e :: rest => (expr_lowers context e).block.bind fun _ => exprs_lowers context rest

theorem values_lowers (context : LowerContext) :
    (es : List (Expr TypeVar)) → LowersBlock (Expr.footprints es) (values context es)
  | [] => .pure_none _ rfl
  | e :: rest =>
    (asValue_lowers _ (expr_lowers context e)).block.bind fun _ =>
      (values_lowers context rest).bind_pure fun _ => rfl

theorem namedValues_lowers (context : LowerContext) :
    (es : List (String × Expr TypeVar)) →
      LowersBlock (Expr.namedFootprints es) (namedValues context es)
  | [] => .pure_none _ rfl
  | (_, e) :: rest =>
    (asValue_lowers _ (expr_lowers context e)).block.bind fun _ =>
      (namedValues_lowers context rest).bind_pure fun _ => rfl

theorem valueArms_lowers (context : LowerContext) :
    (arms : List (Expr TypeVar × List (Expr TypeVar))) →
      ∀ arm ∈ arms, LowersBlock (Expr.footprints arm.2) (exprs context arm.2)
  | [] => nofun
  | (_, body) :: rest => List.forall_mem_cons.2
    ⟨exprs_lowers context body, valueArms_lowers context rest⟩

theorem variantArms_lowers (context : LowerContext) :
    (arms : List (VariantArm TypeVar (List (Expr TypeVar)))) →
      ∀ arm ∈ arms, LowersBlock (Expr.footprints arm.body) (exprs context arm.body)
  | [] => nofun
  | ⟨_, _, _, body⟩ :: rest => List.forall_mem_cons.2
    ⟨exprs_lowers context body, variantArms_lowers context rest⟩

end

end Monomorph.LowerM
