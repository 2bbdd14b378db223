import Monomorph.Proofs.Solve.Comparing
import Monomorph.Proofs.Solve.Effects

/-! # What binding does to a tree

Binding walks a body and asks for a target wherever a usage is pending. A run is described by the nodes before
and after (`Binder.Rebinds`): the same locals are declared, the same variants are unwrapped, the references
afterwards are the targets that were asked for in this order, and a tree without references is left as it is.
What the answers change is said by a relation `R` between workspaces, which has only to hold over each answer
and to compose (`Binder.Answers`). -/

namespace Monomorph.Binder

open Outcome

/-! ### However it ends -/

section keeps

variable {Q : Workspace → Workspace → Prop} {b : Binder SolveM}

/-- A relation that holds over every answer that may be asked for. -/
structure Keeping (b : Binder SolveM) (Q : Workspace → Workspace → Prop) : Prop extends Kept Q where
  procedure : ∀ usage ∈ b.usages.procedures, Keeps Q (b.procedure usage)
  moduleVariable : ∀ usage ∈ b.usages.globals, Keeps Q (b.moduleVariable usage)
  /-- A procedure used as a value needs one more type. -/
  allocate : ∀ span : Span, Keeps Q (SolveM.onGraph (allocate ⟨.unit, some span⟩))

/-- The runs compared with are of no interest. -/
theorem Keeping.answering (h : Keeping b Q) : Answering (.keeping h.toKept) id False b b where
  usages := (Usages.mapVars_id _).symm
  params := False.elim
  procedure usage hu := ⟨h.procedure usage hu, Yields.trivial.imp fun target _ => ⟨target, False.elim⟩⟩
  moduleVariable usage hu := ⟨h.moduleVariable usage hu, Yields.trivial.imp fun target _ => ⟨target, False.elim⟩⟩
  unit span := ⟨h.allocate span, Yields.trivial.imp fun v _ => ⟨v, False.elim⟩⟩
  unbound _ _ := ⟨h.throw _, .throw⟩

theorem exprs_keeps (h : Keeping b Q) (es : List (Expr TypeVar)) : Keeps Q (exprs b es) :=
  ((h.answering.compares fun _ => True).exprs es (p := .isolated) fun _ _ => trivial).1

end keeps

/-! ### Where it succeeds -/

/-- A relation that holds over every answer and composes. -/
structure Answers (b : Binder SolveM) (R : Workspace → List Reference → Workspace → Prop) : Prop where
  nil : ∀ w, R w [] w
  append : ∀ {w w' w'' l l'}, R w l w' → R w' l' w'' → R w (l ++ l') w''
  /-- The target of an assignment is bound before the value. -/
  comm : ∀ {w w' l l'}, R w (l ++ l') w' → R w (l' ++ l) w'
  procedure : ∀ {usage target w w'}, b.procedure usage w = .ok target w' → R w [.procedure target] w'
  moduleVariable : ∀ {usage target w w'}, b.moduleVariable usage w = .ok target w' →
    R w [.moduleVariable target] w'
  /-- A procedure used as a value needs one more type. -/
  allocate : ∀ {target t v w w' w''}, R w [.procedure target] w' →
    SolveM.onGraph (allocate t) w' = .ok v w'' → R w [.procedure target] w''

/-- A run of binding from `w` to `w'` that turns nodes into others. Of nodes without references `unchanged`
holds. -/
structure Rebinds (R : Workspace → List Reference → Workspace → Prop) (w w' : Workspace)
    (declared declared' : List (String × TypeVar)) (nodes nodes' : Place → List (Place × Expr TypeVar))
    (unchanged : Prop) : Prop where
  declared : declared' = declared
  answers : ∀ p, (∀ r ∈ referencesOf (nodes p), r.isPending = true) → R w (referencesOf (nodes' p)) w'
  unwraps : ∀ p, unwrapsOf (nodes' p) = unwrapsOf (nodes p)
  unchanged : ∀ p, referencesOf (nodes' p) = [] → unchanged

section rebinds

variable {R : Workspace → List Reference → Workspace → Prop} {b : Binder SolveM} {w w' w'' : Workspace}
  {declared declared' declared₁ declared₁' : List (String × TypeVar)}
  {nodes nodes' nodes₁ nodes₁' : Place → List (Place × Expr TypeVar)} {unchanged unchanged₁ : Prop}

theorem Rebinds.nil (hb : Answers b R) (w : Workspace) :
    Rebinds R w w [] [] (fun _ => []) (fun _ => []) True :=
  ⟨rfl, fun _ _ => hb.nil w, fun _ => rfl, fun _ _ => trivial⟩

theorem Rebinds.trans (hb : Answers b R) (h : Rebinds R w w' declared declared' nodes nodes' unchanged)
    (h' : Rebinds R w' w'' declared₁ declared₁' nodes₁ nodes₁' unchanged₁) :
    Rebinds R w w'' (declared₁ ++ declared) (declared₁' ++ declared')
      (fun p => nodes p ++ nodes₁ (p.declare declared)) (fun p => nodes' p ++ nodes₁' (p.declare declared'))
      (unchanged ∧ unchanged₁) where
  declared := by rw [h.declared, h'.declared]
  answers p hp := by
    rw [referencesOf_append, List.forall_mem_append] at hp
    rw [referencesOf_append, h.declared]
    exact hb.append (h.answers p hp.1) (h'.answers _ hp.2)
  unwraps p := by rw [unwrapsOf_append, unwrapsOf_append, h.unwraps, h'.unwraps, h.declared]
  unchanged p hp := by
    rw [referencesOf_append, List.append_eq_nil_iff] at hp
    exact ⟨h.unchanged _ hp.1, h'.unchanged _ hp.2⟩

/-- What is bound inside a block, a body or a constant of its own. -/
theorem Rebinds.inside (h : Rebinds R w w' declared declared' nodes nodes' unchanged)
    (q : Place → Place) :
    Rebinds R w w' [] [] (fun p => nodes (q p)) (fun p => nodes' (q p)) unchanged :=
  ⟨rfl, fun p => h.answers (q p), fun p => h.unwraps (q p), fun p => h.unchanged (q p)⟩

theorem Rebinds.declaring (h : Rebinds R w w' declared declared' nodes nodes' unchanged)
    (l : String × TypeVar) : Rebinds R w w' (l :: declared) (l :: declared') nodes nodes' unchanged :=
  ⟨congrArg _ h.declared, h.answers, h.unwraps, h.unchanged⟩

theorem Rebinds.swap (hb : Answers b R) (h : Rebinds R w w' declared declared' nodes nodes' unchanged)
    (h' : Rebinds R w' w'' declared₁ declared₁' nodes₁ nodes₁' unchanged₁) :
    Rebinds R w w'' (declared ++ declared₁) (declared' ++ declared₁')
      (fun p => nodes₁ p ++ nodes (p.declare declared₁)) (fun p => nodes₁' p ++ nodes' (p.declare declared₁'))
      (unchanged ∧ unchanged₁) where
  declared := by rw [h.declared, h'.declared]
  answers p hp := by
    rw [referencesOf_append, List.forall_mem_append] at hp
    rw [referencesOf_append, h'.declared]
    exact hb.comm (hb.append (h.answers _ hp.2) (h'.answers p hp.1))
  unwraps p := by rw [unwrapsOf_append, unwrapsOf_append, h.unwraps, h'.unwraps, h'.declared]
  unchanged p hp := by
    rw [referencesOf_append, List.append_eq_nil_iff] at hp
    exact ⟨h.unchanged _ hp.2, h'.unchanged _ hp.1⟩

theorem Rebinds.node (h : Rebinds R w w' declared declared' nodes nodes' unchanged)
    (e e' : Expr TypeVar) (he : Reference.ofNode e = []) (he' : Reference.ofNode e' = [])
    (hunwrap : ∀ p, Unwrap.ofNode (p, e') = Unwrap.ofNode (p, e)) :
    Rebinds R w w' declared declared' (fun p => (p, e) :: nodes p) (fun p => (p, e') :: nodes' p)
      unchanged where
  declared := h.declared
  answers p hp := by
    rw [referencesOf_cons, he, List.nil_append] at hp
    rw [referencesOf_cons, he', List.nil_append]
    exact h.answers p hp
  unwraps p := by rw [unwrapsOf_cons, unwrapsOf_cons, h.unwraps, hunwrap]
  unchanged p hp := by
    rw [referencesOf_cons, he', List.nil_append] at hp
    exact h.unchanged p hp

theorem Rebinds.imp (h : Rebinds R w w' declared declared' nodes nodes' unchanged)
    (himp : unchanged → unchanged₁) : Rebinds R w w' declared declared' nodes nodes' unchanged₁ :=
  ⟨h.declared, h.answers, h.unwraps, fun p hp => himp (h.unchanged p hp)⟩

/-- One more node that is a reference and is bound first. -/
theorem Rebinds.reference (hb : Answers b R)
    (h : Rebinds R w' w'' declared declared' nodes nodes' unchanged) (e e' : Expr TypeVar) {r r' : Reference}
    (he : Reference.ofNode e = [r]) (he' : Reference.ofNode e' = [r']) (hr : r.isPending = true → R w [r'] w')
    (hunwrap : ∀ p, Unwrap.ofNode (p, e') = Unwrap.ofNode (p, e)) :
    Rebinds R w w'' declared declared' (fun p => (p, e) :: nodes p) (fun p => (p, e') :: nodes' p)
      unchanged₁ where
  declared := h.declared
  answers p hp := by
    rw [referencesOf_cons, he, List.forall_mem_append] at hp
    rw [referencesOf_cons, he']
    exact hb.append (hr (hp.1 r List.mem_cons_self)) (h.answers p hp.2)
  unwraps p := by rw [unwrapsOf_cons, unwrapsOf_cons, h.unwraps, hunwrap]
  unchanged p hp := by
    rw [referencesOf_cons, he'] at hp
    cases hp

theorem bindProcedure_answers (hb : Answers b R) {span : Span} {target target' : Target}
    (h : b.bindProcedure span target w = .ok target' w')
    (hpending : (Reference.procedure target).isPending = true) : R w [.procedure target'] w' := by
  cases target with
  | resolved path variant => cases hpending
  | pending i =>
    obtain ⟨y, hy, h⟩ := eq_ok_iff_exists.1 h
    unfold Binder.bindProcedure at hy
    dsimp only at hy
    split at hy <;> subst hy
    · exact hb.procedure h
    · exact (throw_eq_ok_iff.1 h).elim

theorem bindVariable_answers (hb : Answers b R) {span : Span} {target target' : Target}
    (h : b.bindVariable span target w = .ok target' w')
    (hpending : (Reference.moduleVariable target).isPending = true) :
    R w [.moduleVariable target'] w' := by
  cases target with
  | resolved path variant => cases hpending
  | pending i =>
    obtain ⟨y, hy, h⟩ := eq_ok_iff_exists.1 h
    unfold Binder.bindVariable at hy
    dsimp only at hy
    split at hy <;> subst hy
    · exact hb.moduleVariable h
    · exact (throw_eq_ok_iff.1 h).elim

/-- The closure that stands for a procedure used as a value. -/
def forwarder (m : Mark TypeVar) (params : List String) (usage : ProcedureUsage) (target : Target)
    (unit : TypeVar) : Expr TypeVar :=
  .closure m params
    [.giveBack ⟨m.span, unit⟩ (.invoke ⟨m.span, usage.returns⟩ target
      ((params.zip usage.args).map fun p => .localVar ⟨m.span, p.2⟩ p.1))]
    (some ⟨usage.args, usage.returns, .empty⟩)

/-- Locals passed on neither refer to a module symbol nor unwrap anything. -/
theorem nodesOf_locals (span : Span) (p : Place) (l : List (String × TypeVar)) :
    referencesOf (Expr.nodesOf p (l.map fun a => Expr.localVar ⟨span, a.2⟩ a.1)) = [] ∧
      unwrapsOf (Expr.nodesOf p (l.map fun a => Expr.localVar ⟨span, a.2⟩ a.1)) = [] := by
  induction l generalizing p with
  | nil => exact ⟨rfl, rfl⟩
  | cons a l ih => exact ih _

theorem mem_nodesOf_locals {span : Span} {l : List (String × TypeVar)} {p : Place} {n : Place × Expr TypeVar}
    (hn : n ∈ Expr.nodesOf p (l.map fun a => Expr.localVar ⟨span, a.2⟩ a.1)) :
    ∃ a ∈ l, n = (p, .localVar ⟨span, a.2⟩ a.1) := by
  induction l with
  | nil => cases hn
  | cons a l ih =>
    rcases List.mem_cons.1 hn with rfl | hn
    · exact ⟨a, List.mem_cons_self, rfl⟩
    · obtain ⟨a', ha', heq⟩ := ih hn
      exact ⟨a', List.mem_cons_of_mem _ ha', heq⟩

theorem forwarder_nodes (m : Mark TypeVar) (params : List String) (usage : ProcedureUsage) (target : Target)
    (unit : TypeVar) (p : Place) :
    referencesOf ((forwarder m params usage target unit).nodes p) = [.procedure target] ∧
      unwrapsOf ((forwarder m params usage target unit).nodes p) = [] := by
  obtain ⟨hreferences, hunwraps⟩ := nodesOf_locals m.span
    (p.enter params (some ⟨usage.args, usage.returns, .empty⟩)) (params.zip usage.args)
  simp [forwarder, Expr.nodes, Expr.nodesOf, Reference.ofNode, Unwrap.ofNode, hreferences, hunwraps]

/-- A procedure used as a value becomes a closure that calls it. -/
theorem forward_rebinds (hb : Answers b R) {m : Mark TypeVar} {target : Target} {e' : Expr TypeVar}
    (h : b.forward m target w = .ok e' w') :
    e'.note = m.note ∧ Rebinds R w w' [] e'.declared (fun p => [(p, .procedure m target)])
      (fun p => e'.nodes p) (e' = .procedure m target) := by
  cases target with
  | resolved path variant =>
    obtain ⟨rfl, rfl⟩ := pure_eq_ok_iff.1 h
    refine ⟨rfl, rfl, fun p hp => ?_, fun _ => rfl, fun _ _ => rfl⟩
    cases hp _ List.mem_cons_self
  | pending i =>
    obtain ⟨y, hy, h⟩ := eq_ok_iff_exists.1 h
    unfold Binder.forward at hy
    dsimp only at hy
    split at hy <;> subst hy
    · rename_i usage _
      obtain ⟨target', unit, w₁, htarget, hunit, rfl⟩ := bind_bind_pure_eq_ok_iff.1 h
      have hnodes := forwarder_nodes m (b.params usage.path) usage target' unit
      refine ⟨rfl, rfl, fun p _ => ?_, fun p => (hnodes p).2, fun p hp => ?_⟩
      · exact (hnodes p).1 ▸ hb.allocate (hb.procedure htarget) hunit
      · cases (hnodes p).1.symm.trans hp
    · exact (throw_eq_ok_iff.1 h).elim

/-! ### Arms -/

theorem armValueNodes_zip {values : List (Expr TypeVar)} {bodies : List (List (Expr TypeVar))}
    (h : values.length = bodies.length) :
    Expr.armValueNodes (values.zip bodies) = values.flatMap (Expr.nodes .isolated) := by
  induction values generalizing bodies with
  | nil => rfl
  | cons e values ih =>
    obtain ⟨body, bodies, rfl⟩ := List.exists_cons_of_length_eq_add_one h.symm
    rw [List.zip_cons_cons, Expr.armValueNodes, List.flatMap_cons, ih (Nat.succ.inj h)]

theorem armBodyNodes_zip (p : Place) {values : List (Expr TypeVar)} {bodies : List (List (Expr TypeVar))}
    (h : values.length = bodies.length) :
    Expr.armBodyNodes p (values.zip bodies) = bodies.flatMap (Expr.nodesOf p) := by
  induction values generalizing bodies with
  | nil =>
    obtain rfl := List.length_eq_zero_iff.1 h.symm
    rfl
  | cons e values ih =>
    obtain ⟨body, bodies, rfl⟩ := List.exists_cons_of_length_eq_add_one h.symm
    rw [List.zip_cons_cons, Expr.armBodyNodes, List.flatMap_cons, ih (Nat.succ.inj h)]

/-! ### One construct -/

/-- What binding makes of an expression, if it succeeds. -/
def RebindsExpr (R : Workspace → List Reference → Workspace → Prop) (b : Binder SolveM) (e : Expr TypeVar) : Prop :=
  ∀ {w e' w'}, expr b e w = .ok e' w' → e'.note = e.note ∧
    Rebinds R w w' e.declared e'.declared (fun p => e.nodes p) (fun p => e'.nodes p) (e' = e)

/-- What binding makes of expressions in order, if it succeeds. -/
def RebindsExprs (R : Workspace → List Reference → Workspace → Prop) (b : Binder SolveM)
    (es : List (Expr TypeVar)) : Prop :=
  ∀ {w es' w'}, exprs b es w = .ok es' w' →
    Rebinds R w w' (Expr.declareds es) (Expr.declareds es') (fun p => Expr.nodesOf p es)
      (fun p => Expr.nodesOf p es') (es' = es)

/-- What binding makes of the members of an object. -/
def RebindsMembers (R : Workspace → List Reference → Workspace → Prop) (b : Binder SolveM)
    (es : List (String × Expr TypeVar)) : Prop :=
  ∀ {w es' w'}, namedExprs b es w = .ok es' w' →
    Rebinds R w w' (Expr.namedDeclareds es) (Expr.namedDeclareds es') (fun p => Expr.namedNodes p es)
      (fun p => Expr.namedNodes p es') (es' = es)

/-- What binding makes of the constants of a match. -/
def RebindsArmValues (R : Workspace → List Reference → Workspace → Prop) (b : Binder SolveM)
    (arms : List (Expr TypeVar × List (Expr TypeVar))) : Prop :=
  ∀ {w values w'}, armValues b arms w = .ok values w' → values.length = arms.length ∧
    Rebinds R w w' [] [] (fun _ => Expr.armValueNodes arms) (fun _ => values.flatMap (Expr.nodes .isolated))
      (values = arms.map (·.1))

/-- What binding makes of the bodies of a match against constants. -/
def RebindsArmBodies (R : Workspace → List Reference → Workspace → Prop) (b : Binder SolveM)
    (arms : List (Expr TypeVar × List (Expr TypeVar))) : Prop :=
  ∀ {w bodies w'}, armBodies b arms w = .ok bodies w' → bodies.length = arms.length ∧
    Rebinds R w w' [] [] (fun p => Expr.armBodyNodes p arms) (fun p => bodies.flatMap (Expr.nodesOf p))
      (bodies = arms.map (·.2))

/-- What binding makes of the arms of a match on variants. -/
def RebindsVariantArms (R : Workspace → List Reference → Workspace → Prop) (b : Binder SolveM)
    (arms : List (VariantArm TypeVar (List (Expr TypeVar)))) : Prop :=
  ∀ {w arms' w'}, variantArms b arms w = .ok arms' w' →
    Rebinds R w w' [] [] (fun p => Expr.variantArmNodes p arms) (fun p => Expr.variantArmNodes p arms')
      (arms' = arms)

section constructs

variable {m : Mark TypeVar} {e e₁ e₂ : Expr TypeVar} {es es₁ es₂ : List (Expr TypeVar)}

theorem global_rebinds (hb : Answers b R) (target : Target) : RebindsExpr R b (.global m target) := by
  intro w e' w' h
  obtain ⟨target', htarget, rfl⟩ := bind_pure_eq_ok_iff.1 h
  exact ⟨rfl, (Rebinds.nil hb w').reference hb (.global m target) (.global m target') rfl rfl
    (bindVariable_answers hb htarget) fun _ => rfl⟩

theorem invoke_rebinds (hb : Answers b R) (target : Target) (hargs : RebindsExprs R b es) :
    RebindsExpr R b (.invoke m target es) := by
  intro w e' w' h
  obtain ⟨target', args', w₁, htarget, hargs', rfl⟩ := bind_bind_pure_eq_ok_iff.1 h
  exact ⟨rfl, (hargs hargs').reference hb (.invoke m target es) (.invoke m target' args') rfl rfl
    (bindProcedure_answers hb htarget) fun _ => rfl⟩

theorem call_rebinds (hb : Answers b R) (hcallee : RebindsExpr R b e) (hargs : RebindsExprs R b es) :
    RebindsExpr R b (.call m e es) := by
  intro w e' w' h
  obtain ⟨callee', args', w₁, hcallee', hargs', rfl⟩ := bind_bind_pure_eq_ok_iff.1 h
  have hparts := (hcallee hcallee').2.trans hb (hargs hargs')
  refine ⟨rfl, (hparts.node (.call m e es) (.call m callee' args') rfl rfl fun _ => rfl).imp ?_⟩
  rintro ⟨rfl, rfl⟩
  rfl

theorem method_rebinds (hb : Answers b R) (name : String) (hreceiver : RebindsExpr R b e)
    (hargs : RebindsExprs R b es) : RebindsExpr R b (.method m e name es) := by
  intro w e' w' h
  obtain ⟨receiver', args', w₁, hreceiver', hargs', rfl⟩ := bind_bind_pure_eq_ok_iff.1 h
  have hparts := (hreceiver hreceiver').2.trans hb (hargs hargs')
  refine ⟨rfl, (hparts.node (.method m e name es) (.method m receiver' name args') rfl rfl fun _ => rfl).imp ?_⟩
  rintro ⟨rfl, rfl⟩
  rfl

theorem closure_rebinds (params : List String) (info : Option (ClosureInfo TypeVar))
    (hbody : RebindsExprs R b es) : RebindsExpr R b (.closure m params es info) := by
  intro w e' w' h
  obtain ⟨body', hbody', rfl⟩ := bind_pure_eq_ok_iff.1 h
  have hbody := (hbody hbody').inside fun p => p.enter params info
  refine ⟨rfl, (hbody.node (.closure m params es info) (.closure m params body' info) rfl rfl fun _ => rfl).imp ?_⟩
  rintro rfl
  rfl

theorem define_rebinds (name : String) (isMutable : Bool) (hvalue : RebindsExpr R b e) :
    RebindsExpr R b (.define m name isMutable e) := by
  intro w e' w' h
  obtain ⟨value', hvalue', rfl⟩ := bind_pure_eq_ok_iff.1 h
  have hvalue := (hvalue hvalue').2.declaring (name, m.note)
  refine ⟨rfl, (hvalue.node (.define m name isMutable e) (.define m name isMutable value') rfl rfl
    fun _ => rfl).imp ?_⟩
  rintro rfl
  rfl

theorem declare_rebinds (hb : Answers b R) (name : String) (isMutable : Bool) :
    RebindsExpr R b (.declare m name isMutable) := by
  intro w e' w' h
  obtain ⟨rfl, rfl⟩ := pure_eq_ok_iff.1 h
  have hnil := (Rebinds.nil hb w).declaring (name, m.note)
  exact ⟨rfl, (hnil.node (.declare m name isMutable) (.declare m name isMutable) rfl rfl fun _ => rfl).imp
    fun _ => rfl⟩

theorem assign_rebinds (hb : Answers b R) (htarget : RebindsExpr R b e₁) (hvalue : RebindsExpr R b e₂) :
    RebindsExpr R b (.assign m e₁ e₂) := by
  intro w e' w' h
  obtain ⟨target', value', w₁, htarget', hvalue', rfl⟩ := bind_bind_pure_eq_ok_iff.1 h
  have hparts := (htarget htarget').2.swap hb (hvalue hvalue').2
  refine ⟨rfl, (hparts.node (.assign m e₁ e₂) (.assign m target' value') rfl rfl fun _ => rfl).imp ?_⟩
  rintro ⟨rfl, rfl⟩
  rfl

theorem giveBack_rebinds (hvalue : RebindsExpr R b e) : RebindsExpr R b (.giveBack m e) := by
  intro w e' w' h
  obtain ⟨value', hvalue', rfl⟩ := bind_pure_eq_ok_iff.1 h
  refine ⟨rfl, ((hvalue hvalue').2.node (.giveBack m e) (.giveBack m value') rfl rfl fun _ => rfl).imp ?_⟩
  rintro rfl
  rfl

theorem array_rebinds (helements : RebindsExprs R b es) : RebindsExpr R b (.array m es) := by
  intro w e' w' h
  obtain ⟨elements', helements', rfl⟩ := bind_pure_eq_ok_iff.1 h
  refine ⟨rfl, ((helements helements').node (.array m es) (.array m elements') rfl rfl fun _ => rfl).imp ?_⟩
  rintro rfl
  rfl

theorem repeated_rebinds (hb : Answers b R) (hvalue : RebindsExpr R b e₁) (hsize : RebindsExpr R b e₂) :
    RebindsExpr R b (.repeated m e₁ e₂) := by
  intro w e' w' h
  obtain ⟨value', size', w₁, hvalue', hsize', rfl⟩ := bind_bind_pure_eq_ok_iff.1 h
  have hparts := (hvalue hvalue').2.trans hb (hsize hsize').2
  refine ⟨rfl, (hparts.node (.repeated m e₁ e₂) (.repeated m value' size') rfl rfl fun _ => rfl).imp ?_⟩
  rintro ⟨rfl, rfl⟩
  rfl

theorem member_rebinds (name : String) (howner : RebindsExpr R b e) : RebindsExpr R b (.member m e name) := by
  intro w e' w' h
  obtain ⟨owner', howner', rfl⟩ := bind_pure_eq_ok_iff.1 h
  refine ⟨rfl, ((howner howner').2.node (.member m e name) (.member m owner' name) rfl rfl fun _ => rfl).imp ?_⟩
  rintro rfl
  rfl

theorem element_rebinds (hb : Answers b R) (howner : RebindsExpr R b e₁) (hindex : RebindsExpr R b e₂) :
    RebindsExpr R b (.element m e₁ e₂) := by
  intro w e' w' h
  obtain ⟨owner', index', w₁, howner', hindex', rfl⟩ := bind_bind_pure_eq_ok_iff.1 h
  have hparts := (howner howner').2.trans hb (hindex hindex').2
  refine ⟨rfl, (hparts.node (.element m e₁ e₂) (.element m owner' index') rfl rfl fun _ => rfl).imp ?_⟩
  rintro ⟨rfl, rfl⟩
  rfl

theorem binary_rebinds (hb : Answers b R) (op : BinaryOp) (hleft : RebindsExpr R b e₁)
    (hright : RebindsExpr R b e₂) : RebindsExpr R b (.binary m op e₁ e₂) := by
  intro w e' w' h
  obtain ⟨left', right', w₁, hleft', hright', rfl⟩ := bind_bind_pure_eq_ok_iff.1 h
  have hparts := (hleft hleft').2.trans hb (hright hright').2
  refine ⟨rfl, (hparts.node (.binary m op e₁ e₂) (.binary m op left' right') rfl rfl fun _ => rfl).imp ?_⟩
  rintro ⟨rfl, rfl⟩
  rfl

theorem unary_rebinds (op : UnaryOp) (hoperand : RebindsExpr R b e) : RebindsExpr R b (.unary m op e) := by
  intro w e' w' h
  obtain ⟨operand', hoperand', rfl⟩ := bind_pure_eq_ok_iff.1 h
  refine ⟨rfl, ((hoperand hoperand').2.node (.unary m op e) (.unary m op operand') rfl rfl fun _ => rfl).imp ?_⟩
  rintro rfl
  rfl

theorem variant_rebinds (name : String) (hpayload : RebindsExpr R b e) :
    RebindsExpr R b (.variant m name e) := by
  intro w e' w' h
  obtain ⟨payload', hpayload', rfl⟩ := bind_pure_eq_ok_iff.1 h
  refine ⟨rfl, ((hpayload hpayload').2.node (.variant m name e) (.variant m name payload') rfl rfl
    fun _ => rfl).imp ?_⟩
  rintro rfl
  rfl

/-- An unwrap stays one of the same value, since binding keeps the type of an expression. -/
theorem unwrap_rebinds (name : String) (hvalue : RebindsExpr R b e) : RebindsExpr R b (.unwrap m e name) := by
  intro w e' w' h
  obtain ⟨value', hvalue', rfl⟩ := bind_pure_eq_ok_iff.1 h
  obtain ⟨hnote, hvalue⟩ := hvalue hvalue'
  refine ⟨rfl, (hvalue.node (.unwrap m e name) (.unwrap m value' name) rfl rfl fun p => ?_).imp ?_⟩
  · rw [Unwrap.ofNode, Unwrap.ofNode, hnote]
  · rintro rfl
    rfl

theorem constant_rebinds (hvalue : RebindsExpr R b e) : RebindsExpr R b (.constant m e) := by
  intro w e' w' h
  obtain ⟨value', hvalue', rfl⟩ := bind_pure_eq_ok_iff.1 h
  have hvalue := (hvalue hvalue').2.inside fun _ => .isolated
  refine ⟨rfl, (hvalue.node (.constant m e) (.constant m value') rfl rfl fun _ => rfl).imp ?_⟩
  rintro rfl
  rfl

theorem ifElse_rebinds (hb : Answers b R) (hcondition : RebindsExpr R b e) (hyes : RebindsExprs R b es₁)
    (hno : RebindsExprs R b es₂) : RebindsExpr R b (.ifElse m e es₁ es₂) := by
  intro w e' w' h
  obtain ⟨condition', w₁, hcondition', h⟩ := bind_eq_ok_iff.1 h
  obtain ⟨yes', no', w₂, hyes', hno', rfl⟩ := bind_bind_pure_eq_ok_iff.1 h
  have hyes := (hyes hyes').inside id
  have hno := (hno hno').inside id
  have hparts := (hcondition hcondition').2.trans hb (hyes.trans hb hno)
  refine ⟨rfl, (hparts.node (.ifElse m e es₁ es₂) (.ifElse m condition' yes' no') rfl rfl fun _ => rfl).imp ?_⟩
  rintro ⟨rfl, rfl, rfl⟩
  rfl

theorem object_rebinds {members : List (String × Expr TypeVar)} (hmembers : RebindsMembers R b members) :
    RebindsExpr R b (.object m members) := by
  intro w e' w' h
  obtain ⟨members', hmembers', rfl⟩ := bind_pure_eq_ok_iff.1 h
  refine ⟨rfl, ((hmembers hmembers').node (.object m members) (.object m members') rfl rfl fun _ => rfl).imp ?_⟩
  rintro rfl
  rfl

theorem matchValue_rebinds (hb : Answers b R) {arms : List (Expr TypeVar × List (Expr TypeVar))}
    (hvalue : RebindsExpr R b e) (hvalues : RebindsArmValues R b arms) (hbodies : RebindsArmBodies R b arms)
    (hotherwise : RebindsExprs R b es) : RebindsExpr R b (.matchValue m e arms es) := by
  intro w e' w' h
  obtain ⟨value', w₁, hvalue', h⟩ := bind_eq_ok_iff.1 h
  obtain ⟨values, w₂, hvalues', h⟩ := bind_eq_ok_iff.1 h
  obtain ⟨bodies, otherwise', w₃, hbodies', hotherwise', rfl⟩ := bind_bind_pure_eq_ok_iff.1 h
  obtain ⟨hlength, hvalues⟩ := hvalues hvalues'
  obtain ⟨hlength', hbodies⟩ := hbodies hbodies'
  have hzip : values.length = bodies.length := hlength.trans hlength'.symm
  simp only [← armValueNodes_zip hzip, ← armBodyNodes_zip _ hzip] at hvalues hbodies
  have hotherwise := (hotherwise hotherwise').inside id
  have hparts := (hvalue hvalue').2.trans hb (hvalues.trans hb (hbodies.trans hb hotherwise))
  refine ⟨rfl, (hparts.node (.matchValue m e arms es)
    (.matchValue m value' (values.zip bodies) otherwise') rfl rfl fun _ => rfl).imp ?_⟩
  rintro ⟨rfl, rfl, rfl, rfl⟩
  rw [List.zip_map', List.map_id']

theorem matchVariant_rebinds (hb : Answers b R) {arms : List (VariantArm TypeVar (List (Expr TypeVar)))}
    (hvalue : RebindsExpr R b e) (harms : RebindsVariantArms R b arms) (hotherwise : RebindsExprs R b es) :
    RebindsExpr R b (.matchVariant m e arms (some es)) := by
  intro w e' w' h
  obtain ⟨value', w₁, hvalue', h⟩ := bind_eq_ok_iff.1 h
  obtain ⟨arms', otherwise', w₂, harms', hotherwise', rfl⟩ := bind_bind_pure_eq_ok_iff.1 h
  have hotherwise := (hotherwise hotherwise').inside id
  have hparts := (hvalue hvalue').2.trans hb ((harms harms').trans hb hotherwise)
  refine ⟨rfl, (hparts.node (.matchVariant m e arms (some es))
    (.matchVariant m value' arms' (some otherwise')) rfl rfl fun _ => rfl).imp ?_⟩
  rintro ⟨rfl, rfl, rfl⟩
  rfl

theorem matchAll_rebinds (hb : Answers b R) {arms : List (VariantArm TypeVar (List (Expr TypeVar)))}
    (hvalue : RebindsExpr R b e) (harms : RebindsVariantArms R b arms) :
    RebindsExpr R b (.matchVariant m e arms none) := by
  intro w e' w' h
  obtain ⟨value', arms', w₁, hvalue', harms', rfl⟩ := bind_bind_pure_eq_ok_iff.1 h
  have hparts := (hvalue hvalue').2.trans hb (harms harms')
  refine ⟨rfl, (hparts.node (.matchVariant m e arms none) (.matchVariant m value' arms' none) rfl rfl
    fun _ => rfl).imp ?_⟩
  rintro ⟨rfl, rfl⟩
  rfl

end constructs

/-! ### The induction -/

mutual

theorem expr_rebinds (hb : Answers b R) : (e : Expr TypeVar) → RebindsExpr R b e
  | .literal m value => fun h => by
    obtain ⟨rfl, rfl⟩ := pure_eq_ok_iff.1 h
    exact ⟨rfl, ((Rebinds.nil hb _).node (.literal m value) _ rfl rfl fun _ => rfl).imp fun _ => rfl⟩
  | .name m path => fun h => by
    obtain ⟨rfl, rfl⟩ := pure_eq_ok_iff.1 h
    exact ⟨rfl, (Rebinds.nil hb _).reference hb (.name m path) _ rfl rfl nofun fun _ => rfl⟩
  | .localVar m name => fun h => by
    obtain ⟨rfl, rfl⟩ := pure_eq_ok_iff.1 h
    exact ⟨rfl, ((Rebinds.nil hb _).node (.localVar m name) _ rfl rfl fun _ => rfl).imp fun _ => rfl⟩
  | .global _ target => global_rebinds hb target
  | .procedure _ _ => forward_rebinds hb
  | .invoke _ target args => invoke_rebinds hb target (exprs_rebinds hb args)
  | .call _ callee args => call_rebinds hb (expr_rebinds hb callee) (exprs_rebinds hb args)
  | .method _ receiver name args => method_rebinds hb name (expr_rebinds hb receiver) (exprs_rebinds hb args)
  | .closure _ params body info => closure_rebinds params info (exprs_rebinds hb body)
  | .define _ name isMutable value => define_rebinds name isMutable (expr_rebinds hb value)
  | .declare _ name isMutable => declare_rebinds hb name isMutable
  | .assign _ target value => assign_rebinds hb (expr_rebinds hb target) (expr_rebinds hb value)
  | .giveBack _ value => giveBack_rebinds (expr_rebinds hb value)
  | .object _ members => object_rebinds (namedExprs_rebinds hb members)
  | .array _ elements => array_rebinds (exprs_rebinds hb elements)
  | .repeated _ value size => repeated_rebinds hb (expr_rebinds hb value) (expr_rebinds hb size)
  | .member _ owner name => member_rebinds name (expr_rebinds hb owner)
  | .element _ owner index => element_rebinds hb (expr_rebinds hb owner) (expr_rebinds hb index)
  | .binary _ op left right => binary_rebinds hb op (expr_rebinds hb left) (expr_rebinds hb right)
  | .unary _ op operand => unary_rebinds op (expr_rebinds hb operand)
  | .variant _ name payload => variant_rebinds name (expr_rebinds hb payload)
  | .unwrap _ value name => unwrap_rebinds name (expr_rebinds hb value)
  | .constant _ value => constant_rebinds (expr_rebinds hb value)
  | .ifElse _ condition yes no =>
    ifElse_rebinds hb (expr_rebinds hb condition) (exprs_rebinds hb yes) (exprs_rebinds hb no)
  | .matchValue _ value arms otherwise =>
    matchValue_rebinds hb (expr_rebinds hb value) (armValues_rebinds hb arms) (armBodies_rebinds hb arms)
      (exprs_rebinds hb otherwise)
  | .matchVariant _ value arms (some otherwise) =>
    matchVariant_rebinds hb (expr_rebinds hb value) (variantArms_rebinds hb arms) (exprs_rebinds hb otherwise)
  | .matchVariant _ value arms none =>
    matchAll_rebinds hb (expr_rebinds hb value) (variantArms_rebinds hb arms)

theorem exprs_rebinds (hb : Answers b R) : (es : List (Expr TypeVar)) → RebindsExprs R b es
  | [] => fun h => by
    obtain ⟨rfl, rfl⟩ := pure_eq_ok_iff.1 h
    exact (Rebinds.nil hb _).imp fun _ => rfl
  | e :: rest => fun h => by
    obtain ⟨e', rest', w₁, he, hrest, rfl⟩ := bind_bind_pure_eq_ok_iff.1 h
    refine ((expr_rebinds hb e he).2.trans hb (exprs_rebinds hb rest hrest)).imp ?_
    rintro ⟨rfl, rfl⟩
    rfl

theorem namedExprs_rebinds (hb : Answers b R) :
    (es : List (String × Expr TypeVar)) → RebindsMembers R b es
  | [] => fun h => by
    obtain ⟨rfl, rfl⟩ := pure_eq_ok_iff.1 h
    exact (Rebinds.nil hb _).imp fun _ => rfl
  | (name, e) :: rest => fun h => by
    obtain ⟨e', rest', w₁, he, hrest, rfl⟩ := bind_bind_pure_eq_ok_iff.1 h
    refine ((expr_rebinds hb e he).2.trans hb (namedExprs_rebinds hb rest hrest)).imp ?_
    rintro ⟨rfl, rfl⟩
    rfl

theorem armValues_rebinds (hb : Answers b R) :
    (arms : List (Expr TypeVar × List (Expr TypeVar))) → RebindsArmValues R b arms
  | [] => fun h => by
    obtain ⟨rfl, rfl⟩ := pure_eq_ok_iff.1 h
    exact ⟨rfl, (Rebinds.nil hb _).imp fun _ => rfl⟩
  | (e, _) :: rest => fun h => by
    obtain ⟨e', rest', w₁, he, hrest, rfl⟩ := bind_bind_pure_eq_ok_iff.1 h
    obtain ⟨hlength, hrest⟩ := armValues_rebinds hb rest hrest
    have he := (expr_rebinds hb e he).2.inside fun _ => .isolated
    refine ⟨congrArg Nat.succ hlength, (he.trans hb hrest).imp ?_⟩
    rintro ⟨rfl, rfl⟩
    rfl

theorem armBodies_rebinds (hb : Answers b R) :
    (arms : List (Expr TypeVar × List (Expr TypeVar))) → RebindsArmBodies R b arms
  | [] => fun h => by
    obtain ⟨rfl, rfl⟩ := pure_eq_ok_iff.1 h
    exact ⟨rfl, (Rebinds.nil hb _).imp fun _ => rfl⟩
  | (_, body) :: rest => fun h => by
    obtain ⟨body', rest', w₁, hbody, hrest, rfl⟩ := bind_bind_pure_eq_ok_iff.1 h
    obtain ⟨hlength, hrest⟩ := armBodies_rebinds hb rest hrest
    have hbody := (exprs_rebinds hb body hbody).inside id
    refine ⟨congrArg Nat.succ hlength, (hbody.trans hb hrest).imp ?_⟩
    rintro ⟨rfl, rfl⟩
    rfl

theorem variantArms_rebinds (hb : Answers b R) :
    (arms : List (VariantArm TypeVar (List (Expr TypeVar)))) → RebindsVariantArms R b arms
  | [] => fun h => by
    obtain ⟨rfl, rfl⟩ := pure_eq_ok_iff.1 h
    exact (Rebinds.nil hb _).imp fun _ => rfl
  | ⟨_, binding, payload, body⟩ :: rest => fun h => by
    obtain ⟨body', rest', w₁, hbody, hrest, rfl⟩ := bind_bind_pure_eq_ok_iff.1 h
    have hbody := (exprs_rebinds hb body hbody).inside fun p => p.bind binding payload
    refine (hbody.trans hb (variantArms_rebinds hb rest hrest)).imp ?_
    rintro ⟨rfl, rfl⟩
    rfl

end

end rebinds

end Monomorph.Binder
