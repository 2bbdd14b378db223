import Monomorph.Binding
import Monomorph.Proofs.Draft.Nodes
import Monomorph.Proofs.Expr
import Monomorph.Proofs.Outcome

/-! # Binding compared

Binding asks for an answer at every usage and does nothing else but put the answers together. So whatever there is to
say of two computations that holds of their answers, in whatever monads those are given, holds of binding a tree with
the ones and with the others (`Binder.Compares.exprs`). The second tree may have other notes. -/

namespace Monomorph

open Outcome

/-- One result is the image of the other one, where that is asked for. -/
abbrev ImageIf {α β : Type} (exact : Prop) (φ : α → β) (a : α) (b : β) : Prop := exact → b = φ a

theorem imageIf_false {α β : Type} {φ : α → β} : ImageIf False φ = fun _ _ => True := by
  funext a b
  exact eq_true False.elim

theorem imageIf_eq {α : Type} {φ : α → α} (h : ∀ a, φ a = a) : ImageIf True φ = Eq := by
  funext a b
  simp only [ImageIf, h, true_implies, eq_comm]

theorem imageIf_id {α : Type} : ImageIf True (id : α → α) = Eq := imageIf_eq fun _ => rfl

namespace Binder

variable {M N : Type → Type} [Monad M] [Monad N] [MonadBinding M] [MonadBinding N] {C : Comparison M N}
  {f : TypeVar → TypeVar} {exact : Prop} {asked : Expr TypeVar → Prop} {b : Binder M} {b' : Binder N}

/-- The answers for references of a tree compare to those for references with their notes replaced by `f`. Of results
something is only said where they are to be the same but for that. -/
structure Compares (C : Comparison M N) (f : TypeVar → TypeVar) (exact : Prop) (asked : Expr TypeVar → Prop)
    (b : Binder M) (b' : Binder N) : Prop where
  moduleVariable : ∀ {m target}, asked (.global m target) →
    C.Holds (ImageIf exact id) (b.bindVariable m.span target) (b'.bindVariable m.span target)
  forward : ∀ {m target}, asked (.procedure m target) →
    C.Holds (ImageIf exact (Expr.map f)) (b.forward m target) (b'.forward (m.map f) target)
  procedure : ∀ {m target args}, asked (.invoke m target args) →
    C.Holds (ImageIf exact id) (b.bindProcedure m.span target) (b'.bindProcedure m.span target)

/-- The answers for the same usages, with their types replaced by `f`, compare. -/
structure Answering (C : Comparison M N) (f : TypeVar → TypeVar) (exact : Prop) (b : Binder M) (b' : Binder N) :
    Prop where
  usages : b'.usages = b.usages.mapVars f
  params : exact → b'.params = b.params
  procedure : ∀ usage ∈ b.usages.procedures,
    C.Holds (ImageIf exact id) (b.procedure usage) (b'.procedure (usage.mapVars f))
  moduleVariable : ∀ usage ∈ b.usages.globals,
    C.Holds (ImageIf exact id) (b.moduleVariable usage) (b'.moduleVariable (usage.mapVars f))
  unit : ∀ span, C.Holds (ImageIf exact f) (MonadBinding.unit span) (MonadBinding.unit span)
  unbound : ∀ {α β : Type} (V : α → β → Prop) (span : Span),
    C.Holds V (MonadBinding.unbound span) (MonadBinding.unbound span)

theorem Answering.bindProcedure (h : Answering C f exact b b') (span : Span) (target : Target) :
    C.Holds (ImageIf exact id) (b.bindProcedure span target) (b'.bindProcedure span target) := by
  cases target with
  | resolved => exact C.pure fun _ => rfl
  | pending i =>
    dsimp only [Binder.bindProcedure]
    rw [h.usages, Usages.mapVars, Array.getElem?_map]
    cases hi : b.usages.procedures[i]? with
    | some usage => exact h.procedure usage (Array.mem_of_getElem? hi)
    | none => exact h.unbound _ _

theorem Answering.bindVariable (h : Answering C f exact b b') (span : Span) (target : Target) :
    C.Holds (ImageIf exact id) (b.bindVariable span target) (b'.bindVariable span target) := by
  cases target with
  | resolved => exact C.pure fun _ => rfl
  | pending i =>
    dsimp only [Binder.bindVariable]
    rw [h.usages, Usages.mapVars, Array.getElem?_map]
    cases hi : b.usages.globals[i]? with
    | some usage => exact h.moduleVariable usage (Array.mem_of_getElem? hi)
    | none => exact h.unbound _ _

/-- The locals that a closure hands on as arguments, with their types replaced. -/
theorem mapAll_zip (f : TypeVar → TypeVar) (span : Span) (params : List String) (args : List TypeVar) :
    Expr.mapAll f ((params.zip args).map fun p => Expr.localVar ⟨span, p.2⟩ p.1) =
      (params.zip (args.map f)).map fun p => Expr.localVar ⟨span, p.2⟩ p.1 := by
  rw [Expr.mapAll_eq, List.map_map, List.zip_map_right, List.map_map]
  rfl

theorem Answering.forward (h : Answering C f exact b b') (m : Mark TypeVar) (target : Target) :
    C.Holds (ImageIf exact (Expr.map f)) (b.forward m target) (b'.forward (m.map f) target) := by
  cases target with
  | resolved => exact C.pure fun _ => rfl
  | pending i =>
    dsimp only [Binder.forward]
    rw [h.usages, Usages.mapVars, Array.getElem?_map]
    cases hi : b.usages.procedures[i]? with
    | none => exact h.unbound _ _
    | some usage =>
      refine C.bind (h.procedure usage (Array.mem_of_getElem? hi)) fun htarget => ?_
      refine C.bind (h.unit m.span) fun hunit => C.pure fun hexact => ?_
      rw [htarget hexact, hunit hexact, h.params hexact]
      simp only [Expr.map, Expr.mapAll, mapAll_zip]
      rfl

theorem Answering.compares (h : Answering C f exact b b') (asked : Expr TypeVar → Prop) :
    Compares C f exact asked b b' :=
  ⟨fun _ => h.bindVariable _ _, fun _ => h.forward _ _, fun _ => h.bindProcedure _ _⟩

namespace Compares

mutual

theorem expr (h : Compares C f exact asked b b') : (e : Expr TypeVar) → ∀ {p}, (∀ n ∈ e.nodes p, asked n.2) →
    C.Holds (ImageIf exact (Expr.map f)) (b.expr e) (b'.expr (e.map f))
  | .literal .., _, _ | .name .., _, _ | .localVar .., _, _ | .declare .., _, _ => by
    rw [Expr.map, Binder.expr, Binder.expr]
    exact C.pure fun _ => rfl
  | .global m target, p, hasked => by
    rw [Expr.map, Binder.expr, Binder.expr]
    refine C.bind (h.moduleVariable (hasked (p, .global m target) List.mem_cons_self)) fun htarget =>
      C.pure fun hx => ?_
    rw [htarget hx]
    rfl
  | .procedure m target, p, hasked => by
    rw [Expr.map, Binder.expr, Binder.expr]
    exact h.forward (hasked (p, .procedure m target) List.mem_cons_self)
  | .invoke m target args, p, hasked => by
    obtain ⟨htarget, hargs⟩ := List.forall_mem_cons.1 hasked
    rw [Expr.map, Binder.expr, Binder.expr]
    refine C.bind (h.procedure htarget) fun htarget => C.bind (exprs h args hargs) fun hargs => C.pure fun hx => ?_
    rw [Expr.map, htarget hx, hargs hx]
    rfl
  | .call m callee args, p, hasked => by
    obtain ⟨hcallee, hargs⟩ := List.forall_mem_append.1 (List.forall_mem_cons.1 hasked).2
    rw [Expr.map, Binder.expr, Binder.expr]
    refine C.bind (expr h callee hcallee) fun hcallee => C.bind (exprs h args hargs) fun hargs => C.pure fun hx => ?_
    rw [Expr.map, hcallee hx, hargs hx]
  | .method m receiver name args, p, hasked => by
    obtain ⟨hreceiver, hargs⟩ := List.forall_mem_append.1 (List.forall_mem_cons.1 hasked).2
    rw [Expr.map, Binder.expr, Binder.expr]
    refine C.bind (expr h receiver hreceiver) fun hreceiver => C.bind (exprs h args hargs) fun hargs =>
      C.pure fun hx => ?_
    rw [Expr.map, hreceiver hx, hargs hx]
  | .closure m params body info, p, hasked => by
    rw [Expr.map, Binder.expr, Binder.expr]
    refine C.bind (exprs h body (List.forall_mem_cons.1 hasked).2) fun hbody => C.pure fun hx => ?_
    rw [Expr.map, hbody hx]
  | .define m name isMutable value, p, hasked => by
    rw [Expr.map, Binder.expr, Binder.expr]
    refine C.bind (expr h value (List.forall_mem_cons.1 hasked).2) fun hvalue => C.pure fun hx => ?_
    rw [Expr.map, hvalue hx]
  | .assign m target value, p, hasked => by
    obtain ⟨hvalue, htarget⟩ := List.forall_mem_append.1 (List.forall_mem_cons.1 hasked).2
    rw [Expr.map, Binder.expr, Binder.expr]
    refine C.bind (expr h target htarget) fun htarget => C.bind (expr h value hvalue) fun hvalue => C.pure fun hx => ?_
    rw [Expr.map, htarget hx, hvalue hx]
  | .giveBack m value, p, hasked => by
    rw [Expr.map, Binder.expr, Binder.expr]
    refine C.bind (expr h value (List.forall_mem_cons.1 hasked).2) fun hvalue => C.pure fun hx => ?_
    rw [Expr.map, hvalue hx]
  | .object m members, p, hasked => by
    rw [Expr.map, Binder.expr, Binder.expr]
    refine C.bind (namedExprs h members (List.forall_mem_cons.1 hasked).2) fun hmembers => C.pure fun hx => ?_
    rw [Expr.map, hmembers hx]
  | .array m elements, p, hasked => by
    rw [Expr.map, Binder.expr, Binder.expr]
    refine C.bind (exprs h elements (List.forall_mem_cons.1 hasked).2) fun helements => C.pure fun hx => ?_
    rw [Expr.map, helements hx]
  | .repeated m value size, p, hasked => by
    obtain ⟨hvalue, hsize⟩ := List.forall_mem_append.1 (List.forall_mem_cons.1 hasked).2
    rw [Expr.map, Binder.expr, Binder.expr]
    refine C.bind (expr h value hvalue) fun hvalue => C.bind (expr h size hsize) fun hsize => C.pure fun hx => ?_
    rw [Expr.map, hvalue hx, hsize hx]
  | .member m owner name, p, hasked => by
    rw [Expr.map, Binder.expr, Binder.expr]
    refine C.bind (expr h owner (List.forall_mem_cons.1 hasked).2) fun howner => C.pure fun hx => ?_
    rw [Expr.map, howner hx]
  | .element m owner index, p, hasked => by
    obtain ⟨howner, hindex⟩ := List.forall_mem_append.1 (List.forall_mem_cons.1 hasked).2
    rw [Expr.map, Binder.expr, Binder.expr]
    refine C.bind (expr h owner howner) fun howner => C.bind (expr h index hindex) fun hindex => C.pure fun hx => ?_
    rw [Expr.map, howner hx, hindex hx]
  | .binary m op left right, p, hasked => by
    obtain ⟨hleft, hright⟩ := List.forall_mem_append.1 (List.forall_mem_cons.1 hasked).2
    rw [Expr.map, Binder.expr, Binder.expr]
    refine C.bind (expr h left hleft) fun hleft => C.bind (expr h right hright) fun hright => C.pure fun hx => ?_
    rw [Expr.map, hleft hx, hright hx]
  | .unary m op operand, p, hasked => by
    rw [Expr.map, Binder.expr, Binder.expr]
    refine C.bind (expr h operand (List.forall_mem_cons.1 hasked).2) fun hoperand => C.pure fun hx => ?_
    rw [Expr.map, hoperand hx]
  | .variant m name payload, p, hasked => by
    rw [Expr.map, Binder.expr, Binder.expr]
    refine C.bind (expr h payload (List.forall_mem_cons.1 hasked).2) fun hpayload => C.pure fun hx => ?_
    rw [Expr.map, hpayload hx]
  | .unwrap m value name, p, hasked => by
    rw [Expr.map, Binder.expr, Binder.expr]
    refine C.bind (expr h value (List.forall_mem_cons.1 hasked).2) fun hvalue => C.pure fun hx => ?_
    rw [Expr.map, hvalue hx]
  | .constant m value, p, hasked => by
    rw [Expr.map, Binder.expr, Binder.expr]
    refine C.bind (expr h value (List.forall_mem_cons.1 hasked).2) fun hvalue => C.pure fun hx => ?_
    rw [Expr.map, hvalue hx]
  | .ifElse m condition yes no, p, hasked => by
    obtain ⟨hcondition, hasked⟩ := List.forall_mem_append.1 (List.forall_mem_cons.1 hasked).2
    obtain ⟨hyes, hno⟩ := List.forall_mem_append.1 hasked
    rw [Expr.map, Binder.expr, Binder.expr]
    refine C.bind (expr h condition hcondition) fun hcondition => C.bind (exprs h yes hyes) fun hyes =>
      C.bind (exprs h no hno) fun hno => C.pure fun hx => ?_
    rw [Expr.map, hcondition hx, hyes hx, hno hx]
  | .matchValue m value arms otherwise, p, hasked => by
    obtain ⟨hvalue, hasked⟩ := List.forall_mem_append.1 (List.forall_mem_cons.1 hasked).2
    obtain ⟨hvalues, hasked⟩ := List.forall_mem_append.1 hasked
    obtain ⟨hbodies, hotherwise⟩ := List.forall_mem_append.1 hasked
    rw [Expr.map, Binder.expr, Binder.expr]
    refine C.bind (expr h value hvalue) fun hvalue => C.bind (armValues h arms hvalues) fun hvalues =>
      C.bind (armBodies h arms hbodies) fun hbodies => C.bind (exprs h otherwise hotherwise) fun hotherwise =>
        C.pure fun hx => ?_
    rw [Expr.map, hvalue hx, hvalues hx, hbodies hx, hotherwise hx, Expr.mapArms_zip]
  | .matchVariant m value arms (some otherwise), p, hasked => by
    obtain ⟨hvalue, hasked⟩ := List.forall_mem_append.1 (List.forall_mem_cons.1 hasked).2
    obtain ⟨harms, hotherwise⟩ := List.forall_mem_append.1 hasked
    rw [Expr.map, Binder.expr, Binder.expr]
    refine C.bind (expr h value hvalue) fun hvalue => C.bind (variantArms h arms harms) fun harms =>
      C.bind (exprs h otherwise hotherwise) fun hotherwise => C.pure fun hx => ?_
    rw [Expr.map, hvalue hx, harms hx, hotherwise hx]
  | .matchVariant m value arms none, p, hasked => by
    obtain ⟨hvalue, harms⟩ := List.forall_mem_append.1 (List.forall_mem_cons.1 hasked).2
    rw [Expr.map, Binder.expr, Binder.expr]
    refine C.bind (expr h value hvalue) fun hvalue => C.bind (variantArms h arms harms) fun harms => C.pure fun hx => ?_
    rw [Expr.map, hvalue hx, harms hx]

theorem exprs (h : Compares C f exact asked b b') : (es : List (Expr TypeVar)) → ∀ {p},
    (∀ n ∈ Expr.nodesOf p es, asked n.2) →
      C.Holds (ImageIf exact (Expr.mapAll f)) (b.exprs es) (b'.exprs (Expr.mapAll f es))
  | [], _, _ => by
    rw [Expr.mapAll, Binder.exprs, Binder.exprs]
    exact C.pure fun _ => rfl
  | e :: rest, p, hasked => by
    obtain ⟨he, hrest⟩ := List.forall_mem_append.1 hasked
    rw [Expr.mapAll, Binder.exprs, Binder.exprs]
    refine C.bind (expr h e he) fun he => C.bind (exprs h rest hrest) fun hrest => C.pure fun hx => ?_
    rw [Expr.mapAll, he hx, hrest hx]

theorem namedExprs (h : Compares C f exact asked b b') : (es : List (String × Expr TypeVar)) → ∀ {p},
    (∀ n ∈ Expr.namedNodes p es, asked n.2) →
      C.Holds (ImageIf exact (Expr.mapNamed f)) (b.namedExprs es) (b'.namedExprs (Expr.mapNamed f es))
  | [], _, _ => by
    rw [Expr.mapNamed, Binder.namedExprs, Binder.namedExprs]
    exact C.pure fun _ => rfl
  | (name, e) :: rest, p, hasked => by
    obtain ⟨he, hrest⟩ := List.forall_mem_append.1 hasked
    rw [Expr.mapNamed, Binder.namedExprs, Binder.namedExprs]
    refine C.bind (expr h e he) fun he => C.bind (namedExprs h rest hrest) fun hrest => C.pure fun hx => ?_
    rw [Expr.mapNamed, he hx, hrest hx]

theorem armValues (h : Compares C f exact asked b b') : (arms : List (Expr TypeVar × List (Expr TypeVar))) →
    (∀ n ∈ Expr.armValueNodes arms, asked n.2) →
      C.Holds (ImageIf exact (Expr.mapAll f)) (b.armValues arms) (b'.armValues (Expr.mapArms f arms))
  | [], _ => by
    rw [Expr.mapArms, Binder.armValues, Binder.armValues]
    exact C.pure fun _ => rfl
  | (e, _) :: rest, hasked => by
    obtain ⟨he, hrest⟩ := List.forall_mem_append.1 hasked
    rw [Expr.mapArms, Binder.armValues, Binder.armValues]
    refine C.bind (expr h e he) fun he => C.bind (armValues h rest hrest) fun hrest => C.pure fun hx => ?_
    rw [Expr.mapAll, he hx, hrest hx]

theorem armBodies (h : Compares C f exact asked b b') : (arms : List (Expr TypeVar × List (Expr TypeVar))) → ∀ {p},
    (∀ n ∈ Expr.armBodyNodes p arms, asked n.2) →
      C.Holds (ImageIf exact (List.map (Expr.mapAll f))) (b.armBodies arms) (b'.armBodies (Expr.mapArms f arms))
  | [], _, _ => by
    rw [Expr.mapArms, Binder.armBodies, Binder.armBodies]
    exact C.pure fun _ => rfl
  | (_, body) :: rest, p, hasked => by
    obtain ⟨hbody, hrest⟩ := List.forall_mem_append.1 hasked
    rw [Expr.mapArms, Binder.armBodies, Binder.armBodies]
    refine C.bind (exprs h body hbody) fun hbody => C.bind (armBodies h rest hrest) fun hrest => C.pure fun hx => ?_
    rw [List.map_cons, hbody hx, hrest hx]

theorem variantArms (h : Compares C f exact asked b b') : (arms : List (VariantArm TypeVar (List (Expr TypeVar)))) →
    ∀ {p}, (∀ n ∈ Expr.variantArmNodes p arms, asked n.2) →
      C.Holds (ImageIf exact (Expr.mapVariantArms f)) (b.variantArms arms) (b'.variantArms (Expr.mapVariantArms f arms))
  | [], _, _ => by
    rw [Expr.mapVariantArms, Binder.variantArms, Binder.variantArms]
    exact C.pure fun _ => rfl
  | ⟨_, _, _, body⟩ :: rest, p, hasked => by
    obtain ⟨hbody, hrest⟩ := List.forall_mem_append.1 hasked
    rw [Expr.mapVariantArms, Binder.variantArms, Binder.variantArms]
    refine C.bind (exprs h body hbody) fun hbody => C.bind (variantArms h rest hrest) fun hrest => C.pure fun hx => ?_
    rw [Expr.mapVariantArms, hbody hx, hrest hx]

end

end Compares

/-! ### The same tree -/

theorem Compares.expr_eq (h : Compares C id True asked b b') {e : Expr TypeVar} {p : Place}
    (hasked : ∀ n ∈ e.nodes p, asked n.2) : C.Holds Eq (b.expr e) (b'.expr e) := by
  have hexpr := h.expr e hasked
  rwa [Expr.map_id, imageIf_eq Expr.map_id] at hexpr

theorem Compares.exprs_eq (h : Compares C id True asked b b') {es : List (Expr TypeVar)} {p : Place}
    (hasked : ∀ n ∈ Expr.nodesOf p es, asked n.2) : C.Holds Eq (b.exprs es) (b'.exprs es) := by
  have hexprs := h.exprs es hasked
  rwa [Expr.mapAll_id, imageIf_eq Expr.mapAll_id] at hexprs

/-- The answers for the same usages are the same. -/
structure Alike (C : Comparison M N) (b : Binder M) (b' : Binder N) : Prop where
  usages : b'.usages = b.usages
  params : b'.params = b.params
  procedure : ∀ usage, C.Holds Eq (b.procedure usage) (b'.procedure usage)
  moduleVariable : ∀ usage, C.Holds Eq (b.moduleVariable usage) (b'.moduleVariable usage)

theorem Alike.answering (h : Alike C b b')
    (unit : ∀ span, C.Holds Eq (MonadBinding.unit span) (MonadBinding.unit span))
    (unbound : ∀ {α β : Type} (V : α → β → Prop) (span : Span),
      C.Holds V (MonadBinding.unbound span) (MonadBinding.unbound span)) : Answering C id True b b' where
  usages := h.usages.trans (Usages.mapVars_id _).symm
  params _ := h.params
  procedure usage _ := by
    rw [ProcedureUsage.mapVars_id, imageIf_id]
    exact h.procedure usage
  moduleVariable usage _ := by
    rw [VariableUsage.mapVars_id, imageIf_id]
    exact h.moduleVariable usage
  unit span := by
    rw [imageIf_id]
    exact unit span
  unbound := unbound

end Binder
end Monomorph
