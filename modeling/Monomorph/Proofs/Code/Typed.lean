import Monomorph.Proofs.Code.TypedParts
import Monomorph.Proofs.Solve.Typed

/-! # Lowering keeps code well-typed

Where every node of a body is well-typed, its code is (`LowerM.expr_typed`): what is demanded at a node is what
the operations that it is lowered to ask of their arguments and their result. -/

namespace Monomorph

open Outcome TypeGraph
open Lowering (keepsTypes_kept)

variable {g : TypeGraph}

/-! ### What demands say of types -/

theorem kind_of_demandsBase {r : Records} {v : TypeVar} {base : BaseKind} {k : Kind} (hr : r.Hold g)
    (h : r.DemandsBase v base) (hk : ∀ l, base.accepts l = true → l = k) : g.kind v = k := by
  obtain ⟨reason, h⟩ := h
  exact hk _ (hr.met h).satisfied

theorem BaseKind.eq_integer {k : Kind} (h : BaseKind.integer.accepts k = true) : k = .integer := by
  cases k <;> first | rfl | cases h

theorem BaseKind.eq_boolean {k : Kind} (h : BaseKind.boolean.accepts k = true) : k = .boolean := by
  cases k <;> first | rfl | cases h

theorem Records.Hold.satisfied {r : Records} (hr : r.Hold g) {v : TypeVar} {d : Demand} (h : r.Demands v d) :
    d.Satisfied g v :=
  (hr.met h).satisfied

theorem satisfied_hasMember {v x y : TypeVar} {name : String} (h : (Demand.hasMember name x).Satisfied g v)
    (hxy : g.Same x y) : (Demand.hasMember name y).Satisfied g v := by
  obtain ⟨members, isOpen, order, z, hkind, hget, hz⟩ := h
  exact ⟨members, isOpen, order, z, hkind, hget, g.same_equivalence.trans hz hxy⟩

theorem satisfied_hasElement {v x y : TypeVar} (h : (Demand.hasElement x).Satisfied g v) (hxy : g.Same x y) :
    (Demand.hasElement y).Satisfied g v := by
  obtain ⟨z, hkind, hz⟩ := h
  exact ⟨z, hkind, g.same_equivalence.trans hz hxy⟩

/-- A member that an object has is of the type that it was demanded to have. -/
theorem same_of_hasMember {v x type : TypeVar} {name : String} (h : (Demand.hasMember name x).Satisfied g v)
    (hmember : ∃ members isOpen order, g.kind v = .object members isOpen order ∧ members.get? name = some type) :
    g.Same type x := by
  obtain ⟨members, isOpen, order, y, hkind, hget, hsame⟩ := h
  obtain ⟨_, _, _, hkind', hget'⟩ := hmember
  cases hkind.symm.trans hkind'
  cases hget.symm.trans hget'
  exact hsame

theorem satisfied_hasSignature {v w : TypeVar} {args : List TypeVar} {returns : TypeVar}
    (h : (Demand.hasSignature args returns).Satisfied g v) (hvw : g.Same w v) :
    (Demand.hasSignature args returns).Satisfied g w := by
  obtain ⟨xs, x, hkind, hsame⟩ := h
  exact ⟨xs, x, (kind_eq_of_same hvw).trans hkind, hsame⟩

/-! ### Nodes -/

/-- A node is well-typed, and if it is an unwrap, it is one of those that are listed. -/
structure TypedNode (ty : Typing) (n : Place × Expr TypeVar) : Prop extends Expr.Typed ty.graph ty.calls n where
  unwraps : ∀ u, Unwrap.ofNode n = some u → u ∈ ty.unwraps

namespace LowerM

variable {ty : Typing} {context : LowerContext} {b : BodyTypes} {p : Place} {K : Lowering → Prop}

/-- An expression that is no declaration declares nothing. -/
theorem declare_eq {e : Expr TypeVar} (h : TypedNode ty (p, e)) (he : e.isDeclaration = false) :
    p.declare e.declared = p := by
  rw [Expr.declared_eq_nil he fun o ho => (h.operands o ho).1, Place.declare_nil]

/-- An operation whose result is the value of an expression. -/
theorem emitSome_typed {e : Expr TypeVar} {op : Op} {args : List Version} {types : List TypeVar} {type : TypeVar}
    (he : e.note = type) (hargs : ∀ t : Lowering, K t → HaveTypes t.slots args types)
    (hop : op.Fits ty b types (some type)) :
    LowersTyped ty b p p K (do return some (← emitInto type op args)) (Leaves e) :=
  .bind keepsTypes_kept (emitInto_typed hargs hop) fun _ => .pure keepsTypes_kept fun _ ht => ht.1.trans (he ▸ rfl)

theorem binary_fits {m : Mark TypeVar} {op : BinaryOp} {left right : Expr TypeVar} {r : Records}
    (hr : r.Hold ty.graph) (h : (Expr.binary m op left right).Recorded r p) :
    op.Fits ty left.note right.note m.note := by
  obtain ⟨hboth, h⟩ := h
  refine ⟨hr.satisfied hboth, ?_⟩
  by_cases harithmetic : op.isArithmetic = true
  · rw [if_pos harithmetic] at h ⊢
    exact ⟨hr.satisfied h.1, h.2 ▸ ty.graph.same_equivalence.refl _⟩
  by_cases hcomparison : op.isComparison = true
  · rw [if_neg harithmetic, if_pos hcomparison] at h ⊢
    exact ⟨hr.satisfied h.1, kind_of_demandsBase hr h.2 fun _ => BaseKind.eq_boolean⟩
  by_cases hequality : op.isEquality = true
  · rw [if_neg harithmetic, if_neg hcomparison, if_pos hequality] at h ⊢
    exact kind_of_demandsBase hr h fun _ => BaseKind.eq_boolean
  · rw [if_neg harithmetic, if_neg hcomparison, if_neg hequality] at h ⊢
    exact ⟨kind_of_demandsBase hr h.1 fun _ => BaseKind.eq_boolean, h.2 ▸ ty.graph.same_equivalence.refl _⟩

theorem unary_fits {m : Mark TypeVar} {op : UnaryOp} {operand : Expr TypeVar} {r : Records}
    (hr : r.Hold ty.graph) (h : (Expr.unary m op operand).Recorded r p) :
    op.Fits ty operand.note m.note := by
  obtain ⟨hnote, h⟩ := h
  have hsame : ty.graph.Same operand.note m.note := hnote ▸ ty.graph.same_equivalence.refl _
  cases op with
  | negate => exact ⟨hr.satisfied h, hsame⟩
  | not => exact ⟨kind_of_demandsBase hr h fun _ => BaseKind.eq_boolean, hsame⟩

/-! ### The induction -/

mutual

theorem expr_typed (hcontext : context.graph = ty.graph) : (e : Expr TypeVar) → ∀ {b p K}, p.returns = some b.returns →
    (∀ n ∈ e.nodes p, TypedNode ty n) →
      LowersTyped ty b p (p.declare e.declared) K (expr context e) (Leaves e)
  | .literal m value, b, p, K, _, h => by
    obtain ⟨hnode, -⟩ := List.forall_mem_cons.1 h
    obtain ⟨r, hr, reason, hrecorded⟩ := hnode.supported
    have hload : (Op.load value).Fits ty b [] (some m.note) := hr.satisfied hrecorded
    exact emitSome_typed rfl (fun _ _ => .nil) hload
  | .name .., _, _, _, _, _ => .throw
  | .localVar m name, b, p, K, _, h => by
    obtain ⟨hnode, -⟩ := List.forall_mem_cons.1 h
    obtain ⟨r, hr, hlookup⟩ := hnode.supported
    refine .bind keepsTypes_kept (find_typed name) fun v? => ?_
    cases v? with
    | some v =>
      refine .pure keepsTypes_kept fun t ht => ?_
      obtain ⟨type, htype, hv⟩ := ht.1
      cases hlookup.symm.trans htype
      exact hv
    | none =>
      refine .of_known keepsTypes_kept (fun _ ht => ht.1) fun hcaptured => ?_
      have hread : (Op.readCapture name).Fits ty b [] (some m.note) := fun type htype => by
        cases hlookup.symm.trans (hcaptured type htype)
        exact ty.graph.same_equivalence.refl _
      exact emitSome_typed rfl (fun _ _ => .nil) hread
  | .global m target, b, p, K, _, _ => .bind keepsTypes_kept (resolved_typed target m.span) fun _ =>
      .bind keepsTypes_kept (loadGlobal_typed ..) fun _ => .pure keepsTypes_kept fun _ ht => ht.1
  | .procedure .., _, _, _, _, _ => .throw
  | .invoke m target args, b, p, K, hp, h => by
    obtain ⟨hnode, hargs⟩ := List.forall_mem_cons.1 h
    rw [declare_eq hnode rfl]
    obtain ⟨path, i, htarget, hcall⟩ := hnode.supported
    refine .bind keepsTypes_kept (resolved_typed target m.span) fun called =>
      .of_known keepsTypes_kept (fun _ ht => ht.1) fun heq => ?_
    cases htarget.symm.trans heq
    exact .bind keepsTypes_kept (values_typed hcontext args hp hnode.operands hargs) fun _ =>
      emitSome_typed rfl (fun _ ht => ht.1) hcall
  | .call m callee args, b, p, K, hp, h => by
    simp only [Expr.nodes, List.forall_mem_cons, List.forall_mem_append] at h
    obtain ⟨hnode, hcallee, hargs⟩ := h
    obtain ⟨hocallee, hoargs⟩ := List.forall_mem_cons.1 hnode.operands
    rw [declare_eq hnode rfl]
    rw [hocallee.1, Place.declare_nil] at hargs
    obtain ⟨r, hr, hrecorded⟩ := hnode.supported
    refine .bind keepsTypes_kept (asValue_typed hocallee (expr_typed hcontext callee hp hcallee)) fun vc =>
      .bind keepsTypes_kept (values_typed hcontext args hp hoargs hargs) fun vs =>
        emitSome_typed rfl (fun t ht => .cons ht.2.1 ht.1) ?_
    exact hr.satisfied hrecorded
  | .method m receiver name args, b, p, K, hp, h => by
    simp only [Expr.nodes, List.forall_mem_cons, List.forall_mem_append] at h
    obtain ⟨hnode, hreceiver, hargs⟩ := h
    obtain ⟨horeceiver, hoargs⟩ := List.forall_mem_cons.1 hnode.operands
    rw [declare_eq hnode rfl]
    rw [horeceiver.1, Place.declare_nil] at hargs
    obtain ⟨r, hr, called, hmember, hsignature⟩ := hnode.supported
    refine .bind keepsTypes_kept (asValue_typed horeceiver (expr_typed hcontext receiver hp hreceiver)) fun vo =>
      .bind keepsTypes_kept (memberType_typed ..) fun type =>
        .of_known keepsTypes_kept (fun _ ht => ht.1) fun hhas => ?_
    have hsame := same_of_hasMember (hr.satisfied hmember) (hcontext ▸ hhas)
    have hread : (Op.readMember name).Fits ty b [receiver.note] (some type) :=
      satisfied_hasMember (hr.satisfied hmember) (ty.graph.same_equivalence.symm hsame)
    have hcall : Op.callClosure.Fits ty b (type :: receiver.note :: args.map Expr.note) (some m.note) :=
      satisfied_hasSignature (hr.satisfied hsignature) hsame
    exact .bind keepsTypes_kept (emitInto_typed (fun t ht => .cons ht.2.1 .nil) hread) fun vm =>
      .bind keepsTypes_kept (values_typed hcontext args hp hoargs hargs) fun vs =>
        emitSome_typed rfl (fun t ht => .cons ht.2.1 (.cons ht.2.2.2.1 ht.1)) hcall
  | .closure m params body (some info), b, p, K, hp, h => by
    obtain ⟨hnode, hbody⟩ := List.forall_mem_cons.1 h
    rw [declare_eq hnode rfl]
    obtain ⟨r, hr, i, hi, hlength, hsignature, hcaptures⟩ := hnode.supported
    cases hi
    refine .bind keepsTypes_kept (captureAll_typed info.captures.entries hcaptures) fun captures =>
      .bind keepsTypes_kept (inBody_typed hlength (fun name type hlookup => ?_)
        (exprs_typed hcontext body (b := ⟨_, info.captures.entries⟩) rfl hbody)) fun inner =>
          .bind keepsTypes_kept (newSlot_typed m.note false) fun dest =>
            .bind keepsTypes_kept (emit_typed fun t ht => ?_) fun _ => .pure keepsTypes_kept fun t ht => ht.2.1
    · obtain ⟨before, after, heq, -⟩ := List.lookup_eq_some_iff.1 hlookup
      exact hcaptures (name, type) (heq ▸ by simp)
    · obtain ⟨hdest, ⟨hargs, hcode⟩, hcaptured, -⟩ := ht
      exact .closure hdest (hr.satisfied hsignature) hcaptured hargs hcode
  | .closure _ _ _ none, _, _, _, _, _ => .throw
  | .define m name _ value, b, p, K, hp, h => by
    obtain ⟨hnode, hvalue⟩ := List.forall_mem_cons.1 h
    have ho := hnode.operands value List.mem_cons_self
    obtain ⟨r, hr, hnote⟩ := hnode.supported
    rw [Expr.declared, ho.1]
    refine .bind keepsTypes_kept (asValue_typed ho (expr_typed hcontext value hp hvalue)) fun v =>
      .bind keepsTypes_kept (own_typed fun t ht => ht.1.trans (congrArg some hnote.symm)) fun w =>
        .bind keepsTypes_kept (bind_typed fun t ht => ht.1) fun _ => .pure keepsTypes_kept fun _ _ => rfl
  | .declare m name _, b, p, K, _, _ =>
    .bind keepsTypes_kept (newSlot_typed m.note false) fun _ =>
      .bind keepsTypes_kept (bind_typed fun t ht => ht.1) fun _ => .pure keepsTypes_kept fun _ _ => rfl
  | .assign m target value, b, p, K, hp, h => by
    simp only [Expr.nodes, List.forall_mem_cons, List.forall_mem_append] at h
    obtain ⟨hnode, hvalue, htarget⟩ := h
    have ho := hnode.operands value (by simp [Expr.operands])
    rw [declare_eq hnode rfl]
    rw [ho.1, Place.declare_nil] at htarget
    obtain ⟨r, hr, hrecorded⟩ := hnode.supported
    have hsame : ty.graph.Same target.note value.note := hr.satisfied hrecorded
    have hvalue {K : Lowering → Prop} : LowersTyped ty b p p K _ _ :=
      asValue_typed ho (expr_typed hcontext value hp hvalue)
    cases target with
    | localVar t name =>
      obtain ⟨r', hr', hlookup⟩ := (htarget _ List.mem_cons_self).supported
      refine .bind keepsTypes_kept hvalue fun v => .bind keepsTypes_kept (find_typed name) fun v? => ?_
      cases v? with
      | some current =>
        have hcurrent {t' : Lowering} (h : ∃ type, p.locals.lookup name = some type ∧
            slotType t'.slots current = some type) : slotType t'.slots current = some t.note := by
          obtain ⟨type, htype, hv⟩ := h
          cases hlookup.symm.trans htype
          exact hv
        have hcopy : Op.copy.Fits ty b [value.note] (some t.note) := ty.graph.same_equivalence.symm hsame
        refine .bind keepsTypes_kept (nextVersion_typed current) fun next => .bind keepsTypes_kept
          (emit_typed fun t' ht => .op (.cons ht.2.2.1 .nil)
            (.some ((slotType_congr ht.1).trans (hcurrent ht.2.1))) hcopy) fun _ => .bind keepsTypes_kept
          (rebind_typed hlookup fun t' ht => (slotType_congr ht.2.1).trans (hcurrent ht.2.2.1)) fun _ =>
            .pure keepsTypes_kept fun _ _ => rfl
      | none =>
        refine .of_known keepsTypes_kept (fun _ ht => ht.1) fun hcaptured => ?_
        have hwrite : (Op.writeCapture name).Fits ty b [value.note] none := fun type htype => by
          cases hlookup.symm.trans (hcaptured type htype)
          exact hsame
        exact .bind keepsTypes_kept (emit_typed fun t' ht => .op (.cons ht.2.1 .nil) .none hwrite) fun _ =>
          .pure keepsTypes_kept fun _ _ => rfl
    | member t owner name =>
      obtain ⟨htnode, howner⟩ := List.forall_mem_cons.1 htarget
      have hoowner := htnode.operands owner List.mem_cons_self
      obtain ⟨r', hr', hmember⟩ := htnode.supported
      have hwrite : (Op.writeMember name).Fits ty b [owner.note, value.note] none :=
        satisfied_hasMember (hr'.satisfied hmember) hsame
      exact .bind keepsTypes_kept hvalue fun v =>
        .bind keepsTypes_kept (asValue_typed hoowner (expr_typed hcontext owner hp howner)) fun vo =>
          .bind keepsTypes_kept (emit_typed fun t' ht => .op (.cons ht.1 (.cons ht.2.1 .nil)) .none hwrite) fun _ =>
            .pure keepsTypes_kept fun _ _ => rfl
    | element t owner index =>
      simp only [Expr.nodes, List.forall_mem_cons, List.forall_mem_append] at htarget
      obtain ⟨htnode, howner, hindex⟩ := htarget
      have hoowner := htnode.operands owner List.mem_cons_self
      have hoindex := htnode.operands index (by simp [Expr.operands])
      rw [hoowner.1, Place.declare_nil] at hindex
      obtain ⟨r', hr', helement, hinteger⟩ := htnode.supported
      have hwrite : Op.writeElement.Fits ty b [owner.note, index.note, value.note] none :=
        ⟨satisfied_hasElement (hr'.satisfied helement) hsame,
          kind_of_demandsBase hr' hinteger fun _ => BaseKind.eq_integer⟩
      exact .bind keepsTypes_kept hvalue fun v =>
        .bind keepsTypes_kept (asValue_typed hoowner (expr_typed hcontext owner hp howner)) fun vo =>
          .bind keepsTypes_kept (asValue_typed hoindex (expr_typed hcontext index hp hindex)) fun vi =>
            .bind keepsTypes_kept (emit_typed fun t' ht =>
              .op (.cons ht.2.1 (.cons ht.1 (.cons ht.2.2.1 .nil))) .none hwrite) fun _ =>
                .pure keepsTypes_kept fun _ _ => rfl
    | global t target =>
      cases target with
      | pending | resolved => exact .bind keepsTypes_kept hvalue fun _ => .throw_bind
    | _ => exact .bind keepsTypes_kept hvalue fun _ => .throw_bind
  | .giveBack m value, b, p, K, hp, h => by
    obtain ⟨hnode, hvalue⟩ := List.forall_mem_cons.1 h
    have ho := hnode.operands value List.mem_cons_self
    rw [declare_eq hnode rfl]
    obtain ⟨r, hr, hrecorded⟩ := hnode.supported
    have hgive : Op.giveBack.Fits ty b [value.note] none := hr.satisfied (hrecorded _ hp)
    exact .bind keepsTypes_kept (asValue_typed ho (expr_typed hcontext value hp hvalue)) fun v =>
      .bind keepsTypes_kept (emit_typed fun t ht => .op (.cons ht.1 .nil) .none hgive) fun _ =>
        .pure keepsTypes_kept fun _ _ => rfl
  | .object m members, b, p, K, hp, h => by
    obtain ⟨hnode, hmembers⟩ := List.forall_mem_cons.1 h
    rw [declare_eq hnode rfl]
    obtain ⟨r, hr, hhas, hlimit⟩ := hnode.supported
    have hload : (Op.loadObject (members.map (·.1))).Fits ty b (members.map (·.2.note)) (some m.note) := by
      refine ⟨by simp, hr.satisfied hlimit, fun e he => ?_⟩
      rw [List.zip_map'] at he
      obtain ⟨e', he', rfl⟩ := List.mem_map.1 he
      exact hr.satisfied (hhas e' he')
    exact .bind keepsTypes_kept (namedValues_typed hcontext members hp hnode.operands hmembers) fun vs =>
      emitSome_typed rfl (fun _ ht => ht.1) hload
  | .array m elements, b, p, K, hp, h => by
    obtain ⟨hnode, helements⟩ := List.forall_mem_cons.1 h
    rw [declare_eq hnode rfl]
    obtain ⟨r, hr, element, harray, hall⟩ := hnode.supported
    have hload : Op.loadArray.Fits ty b (elements.map Expr.note) (some m.note) := by
      obtain ⟨x, hkind, hx⟩ := hr.satisfied harray
      refine ⟨x, hkind, fun v hv => ?_⟩
      obtain ⟨e, he, rfl⟩ := List.mem_map.1 hv
      exact ty.graph.same_equivalence.trans hx (hr.satisfied (hall e he))
    exact .bind keepsTypes_kept (values_typed hcontext elements hp hnode.operands helements) fun vs =>
      emitSome_typed rfl (fun _ ht => ht.1) hload
  | .repeated m value size, b, p, K, hp, h => by
    simp only [Expr.nodes, List.forall_mem_cons, List.forall_mem_append] at h
    obtain ⟨hnode, hvalue, hsize⟩ := h
    have hovalue := hnode.operands value List.mem_cons_self
    have hosize := hnode.operands size (by simp [Expr.operands])
    rw [declare_eq hnode rfl]
    rw [hovalue.1, Place.declare_nil] at hsize
    obtain ⟨r, hr, helement, hinteger⟩ := hnode.supported
    have hload : Op.loadRepeated.Fits ty b [value.note, size.note] (some m.note) :=
      ⟨hr.satisfied helement, kind_of_demandsBase hr hinteger fun _ => BaseKind.eq_integer⟩
    exact .bind keepsTypes_kept (asValue_typed hovalue (expr_typed hcontext value hp hvalue)) fun vv =>
      .bind keepsTypes_kept (asValue_typed hosize (expr_typed hcontext size hp hsize)) fun vs =>
        emitSome_typed rfl (fun _ ht => .cons ht.2.1 (.cons ht.1 .nil)) hload
  | .member m owner name, b, p, K, hp, h => by
    obtain ⟨hnode, howner⟩ := List.forall_mem_cons.1 h
    have ho := hnode.operands owner List.mem_cons_self
    rw [declare_eq hnode rfl]
    obtain ⟨r, hr, hmember⟩ := hnode.supported
    have hread : (Op.readMember name).Fits ty b [owner.note] (some m.note) := hr.satisfied hmember
    exact .bind keepsTypes_kept (asValue_typed ho (expr_typed hcontext owner hp howner)) fun v =>
      emitSome_typed rfl (fun _ ht => .cons ht.1 .nil) hread
  | .element m owner index, b, p, K, hp, h => by
    simp only [Expr.nodes, List.forall_mem_cons, List.forall_mem_append] at h
    obtain ⟨hnode, howner, hindex⟩ := h
    have hoowner := hnode.operands owner List.mem_cons_self
    have hoindex := hnode.operands index (by simp [Expr.operands])
    rw [declare_eq hnode rfl]
    rw [hoowner.1, Place.declare_nil] at hindex
    obtain ⟨r, hr, helement, hinteger⟩ := hnode.supported
    have hread : Op.readElement.Fits ty b [owner.note, index.note] (some m.note) :=
      ⟨hr.satisfied helement, kind_of_demandsBase hr hinteger fun _ => BaseKind.eq_integer⟩
    exact .bind keepsTypes_kept (asValue_typed hoowner (expr_typed hcontext owner hp howner)) fun vo =>
      .bind keepsTypes_kept (asValue_typed hoindex (expr_typed hcontext index hp hindex)) fun vi =>
        emitSome_typed rfl (fun _ ht => .cons ht.2.1 (.cons ht.1 .nil)) hread
  | .binary m op left right, b, p, K, hp, h => by
    simp only [Expr.nodes, List.forall_mem_cons, List.forall_mem_append] at h
    obtain ⟨hnode, hleft, hright⟩ := h
    have holeft := hnode.operands left List.mem_cons_self
    have horight := hnode.operands right (by simp [Expr.operands])
    rw [declare_eq hnode rfl]
    rw [holeft.1, Place.declare_nil] at hright
    obtain ⟨r, hr, hrecorded⟩ := hnode.supported
    have hfits : op.Fits ty left.note right.note m.note := binary_fits hr hrecorded
    have hl {K : Lowering → Prop} : LowersTyped ty b p p K _ _ :=
      asValue_typed holeft (expr_typed hcontext left hp hleft)
    have hr {K : Lowering → Prop} : LowersTyped ty b p p K _ _ :=
      asValue_typed horight (expr_typed hcontext right hp hright)
    cases op with
    | and | or =>
      obtain ⟨hsame, -, hresult⟩ := hfits
      exact .bind keepsTypes_kept (shortCircuit_typed hresult
        (ty.graph.same_equivalence.trans (ty.graph.same_equivalence.symm hsame) hresult) hl hr) fun _ =>
          .pure keepsTypes_kept fun _ ht => ht.1
    | _ =>
      exact .bind keepsTypes_kept hl fun _ => .bind keepsTypes_kept hr fun _ =>
        emitSome_typed rfl (fun _ ht => .cons ht.2.1 (.cons ht.1 .nil)) hfits
  | .unary m op operand, b, p, K, hp, h => by
    obtain ⟨hnode, hoperand⟩ := List.forall_mem_cons.1 h
    have ho := hnode.operands operand List.mem_cons_self
    rw [declare_eq hnode rfl]
    obtain ⟨r, hr, hrecorded⟩ := hnode.supported
    exact .bind keepsTypes_kept (asValue_typed ho (expr_typed hcontext operand hp hoperand)) fun v =>
      emitSome_typed rfl (fun _ ht => .cons ht.1 .nil) (unary_fits hr hrecorded)
  | .variant m name payload, b, p, K, hp, h => by
    obtain ⟨hnode, hpayload⟩ := List.forall_mem_cons.1 h
    have ho := hnode.operands payload List.mem_cons_self
    rw [declare_eq hnode rfl]
    obtain ⟨r, hr, hvariant⟩ := hnode.supported
    have hload : (Op.loadVariant name).Fits ty b [payload.note] (some m.note) := hr.satisfied hvariant
    exact .bind keepsTypes_kept (asValue_typed ho (expr_typed hcontext payload hp hpayload)) fun v =>
      emitSome_typed rfl (fun _ ht => .cons ht.1 .nil) hload
  | .unwrap m value name, b, p, K, hp, h => by
    obtain ⟨hnode, hvalue⟩ := List.forall_mem_cons.1 h
    have ho := hnode.operands value List.mem_cons_self
    rw [declare_eq hnode rfl]
    obtain ⟨r, hr, hvariant, -⟩ := hnode.supported
    have hunwrap := hnode.unwraps ⟨b.returns, value.note, name⟩ (by simp [Unwrap.ofNode, hp])
    exact .bind keepsTypes_kept (asValue_typed ho (expr_typed hcontext value hp hvalue)) fun v =>
      .bind keepsTypes_kept (unwrapVariant_typed (fun _ ht => ht.1) (hr.satisfied hvariant) hunwrap) fun _ =>
        .pure keepsTypes_kept fun _ ht => ht.1
  | .constant m value, b, p, K, _, _ => .bind keepsTypes_kept (evaluateConstant_typed context value) fun _ =>
      emitSome_typed rfl (fun _ _ => .nil) trivial
  | .ifElse m condition yes no, b, p, K, hp, h => by
    simp only [Expr.nodes, List.forall_mem_cons, List.forall_mem_append] at h
    obtain ⟨hnode, hcondition, hyes, hno⟩ := h
    have ho := hnode.operands condition List.mem_cons_self
    rw [declare_eq hnode rfl]
    rw [ho.1, Place.declare_nil] at hyes hno
    refine .bind keepsTypes_kept (asValue_typed ho (expr_typed hcontext condition hp hcondition)) fun v =>
      .bind keepsTypes_kept (addConstant_typed _) fun id =>
        .bind keepsTypes_kept (inBlock_typed (exprs_typed hcontext yes hp hyes)) fun yes' =>
          .bind keepsTypes_kept (inBlock_typed (exprs_typed hcontext no hp hno)) fun no' =>
            .bind keepsTypes_kept (emit_typed fun t ht => ?_) fun _ =>
              .bind keepsTypes_kept (join_typed _) fun _ => .pure keepsTypes_kept fun _ _ => rfl
    obtain ⟨⟨-, hno'⟩, ⟨-, hyes'⟩, -, hv, -⟩ := ht
    exact .branchValue hv (List.forall_mem_singleton.2 hyes') hno'
  | .matchValue m value arms otherwise, b, p, K, hp, h => by
    simp only [Expr.nodes, List.forall_mem_cons, List.forall_mem_append] at h
    obtain ⟨hnode, hvalue, -, harms, hotherwise⟩ := h
    have ho := hnode.operands value List.mem_cons_self
    rw [declare_eq hnode rfl]
    rw [ho.1, Place.declare_nil] at harms hotherwise
    refine .bind keepsTypes_kept (asValue_typed ho (expr_typed hcontext value hp hvalue)) fun v =>
      .bind keepsTypes_kept (evaluateArms_typed context arms) fun ids =>
        .bind keepsTypes_kept (valueArms_typed hcontext arms hp harms) fun bodies =>
          .bind keepsTypes_kept (inBlock_typed (exprs_typed hcontext otherwise hp hotherwise)) fun last =>
            .bind keepsTypes_kept (emit_typed fun t ht => ?_) fun _ =>
              .bind keepsTypes_kept (join_typed _) fun _ => .pure keepsTypes_kept fun _ _ => rfl
    obtain ⟨⟨-, hlast⟩, hbodies, -, hv, -⟩ := ht
    refine .branchValue hv (fun arm harm => ?_) hlast
    obtain ⟨body, hbody, heq⟩ := List.mem_map.1 (List.of_mem_zip harm).2
    exact heq ▸ hbodies body hbody
  | .matchVariant m value arms (some otherwise), b, p, K, hp, h => by
    simp only [Expr.nodes, List.forall_mem_cons, List.forall_mem_append] at h
    obtain ⟨hnode, hvalue, harms, hotherwise⟩ := h
    have ho := hnode.operands value List.mem_cons_self
    rw [declare_eq hnode rfl]
    rw [ho.1, Place.declare_nil] at harms hotherwise
    obtain ⟨r, hr, hvariants, -⟩ := hnode.supported
    refine .bind keepsTypes_kept (asValue_typed ho (expr_typed hcontext value hp hvalue)) fun v =>
      .bind keepsTypes_kept (variantArms_typed hcontext arms hp
        (fun arm harm => hr.satisfied (hvariants arm harm)) harms) fun arms' =>
          .bind keepsTypes_kept (inBlock_typed (exprs_typed hcontext otherwise hp hotherwise)) fun last =>
            .bind keepsTypes_kept (emit_typed fun t ht => ?_) fun _ =>
              .bind keepsTypes_kept (join_typed _) fun _ => .pure keepsTypes_kept fun _ _ => rfl
    obtain ⟨⟨-, hlast⟩, harms', hv, -⟩ := ht
    exact .branchVariant hv (List.forall_mem_map.2 fun arm harm => (harms' arm harm).1)
      (List.forall_mem_map.2 fun arm harm => (harms' arm harm).2) hlast
  | .matchVariant m value arms none, b, p, K, hp, h => by
    simp only [Expr.nodes, List.forall_mem_cons, List.forall_mem_append] at h
    obtain ⟨hnode, hvalue, harms⟩ := h
    have ho := hnode.operands value List.mem_cons_self
    rw [declare_eq hnode rfl]
    rw [ho.1, Place.declare_nil] at harms
    obtain ⟨r, hr, hvariants, -⟩ := hnode.supported
    refine .bind keepsTypes_kept (asValue_typed ho (expr_typed hcontext value hp hvalue)) fun v =>
      .bind keepsTypes_kept (variantArms_typed hcontext arms hp
        (fun arm harm => hr.satisfied (hvariants arm harm)) harms) fun arms' =>
          .bind keepsTypes_kept (emit_typed fun t ht => ?_) fun _ =>
            .bind keepsTypes_kept (join_typed _) fun _ => .pure keepsTypes_kept fun _ _ => rfl
    obtain ⟨harms', hv, -⟩ := ht
    exact .branchVariant hv (List.forall_mem_map.2 fun arm harm => (harms' arm harm).1)
      (List.forall_mem_map.2 fun arm harm => (harms' arm harm).2) nofun

theorem exprs_typed (hcontext : context.graph = ty.graph) : (es : List (Expr TypeVar)) → ∀ {b p K},
    p.returns = some b.returns → (∀ n ∈ Expr.nodesOf p es, TypedNode ty n) →
      LowersTyped ty b p (p.declare (Expr.declareds es)) K (exprs context es) fun _ _ => True
  | [], _, _, _, _, _ => .pure keepsTypes_kept fun _ _ => trivial
  | e :: rest, b, p, K, hp, h => by
    rw [Expr.nodesOf, List.forall_mem_append] at h
    rw [Expr.declareds, ← Place.declare_declare]
    exact .bind keepsTypes_kept (expr_typed hcontext e hp h.1) fun _ => exprs_typed hcontext rest hp h.2

theorem namedValues_typed (hcontext : context.graph = ty.graph) : (es : List (String × Expr TypeVar)) → ∀ {b p K},
    p.returns = some b.returns → (∀ o ∈ es.map (·.2), o.IsOperand ty.graph) →
      (∀ n ∈ Expr.namedNodes p es, TypedNode ty n) →
        LowersTyped ty b p p K (namedValues context es) fun t vs => HaveTypes t.slots vs (es.map (·.2.note))
  | [], _, _, _, _, _, _ => .pure keepsTypes_kept fun _ _ => .nil
  | (_, e) :: rest, b, p, K, hp, hes, h => by
    rw [Expr.namedNodes, List.forall_mem_append] at h
    obtain ⟨he, hes⟩ := List.forall_mem_cons.1 hes
    rw [he.1, Place.declare_nil] at h
    exact .bind keepsTypes_kept (asValue_typed he (expr_typed hcontext e hp h.1)) fun _ =>
      .bind keepsTypes_kept (namedValues_typed hcontext rest hp hes h.2) fun _ =>
        .pure keepsTypes_kept fun _ ht => .cons ht.2.1 ht.1

theorem valueArms_typed (hcontext : context.graph = ty.graph) :
    (arms : List (Expr TypeVar × List (Expr TypeVar))) → ∀ {b p K}, p.returns = some b.returns →
      (∀ n ∈ Expr.armBodyNodes p arms, TypedNode ty n) →
        LowersTyped ty b p p K (valueArms context arms) fun t bodies =>
          ∀ body ∈ bodies, ∀ i ∈ body.1, i.WellTyped ty b t.slots
  | [], _, _, _, _, _ => .pure keepsTypes_kept fun _ _ => nofun
  | (_, body) :: rest, b, p, K, hp, h => by
    rw [Expr.armBodyNodes, List.forall_mem_append] at h
    exact .bind keepsTypes_kept (inBlock_typed (exprs_typed hcontext body hp h.1)) fun _ =>
      .bind keepsTypes_kept (valueArms_typed hcontext rest hp h.2) fun _ =>
        .pure keepsTypes_kept fun _ ht => List.forall_mem_cons.2 ⟨ht.2.1.2, ht.1⟩

theorem variantArms_typed (hcontext : context.graph = ty.graph) {type : TypeVar} :
    (arms : List (VariantArm TypeVar (List (Expr TypeVar)))) → ∀ {b p K}, p.returns = some b.returns →
      (∀ arm ∈ arms, (Demand.hasVariant arm.variant arm.payload).Satisfied ty.graph type) →
        (∀ n ∈ Expr.variantArmNodes p arms, TypedNode ty n) →
          LowersTyped ty b p p K (variantArms context arms) fun t arms' => ∀ arm ∈ arms',
            (∀ v ∈ arm.1.binding, ∃ payload, slotType t.slots v = some payload ∧
              (Demand.hasVariant arm.1.variant payload).Satisfied ty.graph type) ∧
                ∀ i ∈ arm.1.body, i.WellTyped ty b t.slots
  | [], _, _, _, _, _, _ => .pure keepsTypes_kept fun _ _ => nofun
  | ⟨variant, some name, payload, body⟩ :: rest, b, p, K, hp, hvariants, h => by
    rw [Expr.variantArmNodes, List.forall_mem_append] at h
    obtain ⟨hvariant, hvariants⟩ := List.forall_mem_cons.1 hvariants
    refine .bind keepsTypes_kept (newSlot_typed payload false) fun v => .bind keepsTypes_kept
      (inBlock_typed (.bind keepsTypes_kept (bind_typed fun t ht => ht.1) fun _ =>
        exprs_typed hcontext body hp h.1)) fun block =>
          .bind keepsTypes_kept (variantArms_typed hcontext rest hp hvariants h.2) fun arms' =>
            .pure keepsTypes_kept fun t ht => List.forall_mem_cons.2 ⟨⟨?_, ht.2.1.2⟩, ht.1⟩
    rintro _ ⟨⟩
    exact ⟨payload, ht.2.2.1, hvariant⟩
  | ⟨variant, none, payload, body⟩ :: rest, b, p, K, hp, hvariants, h => by
    rw [Expr.variantArmNodes, List.forall_mem_append] at h
    obtain ⟨-, hvariants⟩ := List.forall_mem_cons.1 hvariants
    exact .bind keepsTypes_kept (inBlock_typed (exprs_typed hcontext body hp h.1)) fun block =>
      .bind keepsTypes_kept (variantArms_typed hcontext rest hp hvariants h.2) fun arms' =>
        .pure keepsTypes_kept fun t ht => List.forall_mem_cons.2 ⟨⟨nofun, ht.2.1.2⟩, ht.1⟩

theorem values_typed (hcontext : context.graph = ty.graph) : (es : List (Expr TypeVar)) → ∀ {b p K},
    p.returns = some b.returns → (∀ o ∈ es, o.IsOperand ty.graph) → (∀ n ∈ Expr.nodesOf p es, TypedNode ty n) →
      LowersTyped ty b p p K (values context es) fun t vs => HaveTypes t.slots vs (es.map Expr.note)
  | [], _, _, _, _, _, _ => .pure keepsTypes_kept fun _ _ => .nil
  | e :: rest, b, p, K, hp, hes, h => by
    rw [Expr.nodesOf, List.forall_mem_append] at h
    obtain ⟨he, hes⟩ := List.forall_mem_cons.1 hes
    rw [he.1, Place.declare_nil] at h
    exact .bind keepsTypes_kept (asValue_typed he (expr_typed hcontext e hp h.1)) fun _ =>
      .bind keepsTypes_kept (values_typed hcontext rest hp hes h.2) fun _ =>
        .pure keepsTypes_kept fun _ ht => .cons ht.2.1 ht.1

end

end LowerM
end Monomorph
