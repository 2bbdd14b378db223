import Monomorph.Proofs.Draft.Formed
import Monomorph.Proofs.Draft.Recorded
import Monomorph.Proofs.Solve.Binding

/-! # The nodes of bound bodies

Binding replaces references and leaves a tree as it is otherwise: every node of the bound body renews one of the draft
at the same place (`Expr.Renewed`). It is the same node, with answers for targets and with operands that are the same
to the expression around them (`Expr.Alike`), or it belongs to the closure that a procedure used as a value becomes.
So what is said of nodes one by one is proved for one node that renews another, and the tree is walked here only
(`Binder.exprs_renews`). What is known of the answers may depend on the workspace. -/

namespace Monomorph

open Outcome

namespace Expr

/-! ### What an enclosing expression sees -/

/-- Two expressions that are the same to the expression around them: they are of one type, declare the same, and the
same can be done with them. -/
structure Alike (e e' : Expr TypeVar) : Prop where
  note : e'.note = e.note
  declared : e'.declared = e.declared
  isPlace : e'.isPlace = e.isPlace
  hasValue : e'.hasValue = e.hasValue
  isDeclaration : e'.isDeclaration = e.isDeclaration

theorem Alike.operand {g : TypeGraph} {e e' : Expr TypeVar} (h : Alike e e') (he : e.IsOperand g) :
    e'.IsOperand g :=
  ⟨h.declared.trans he.1, fun hvalue => h.note ▸ he.2 (h.hasValue ▸ hvalue)⟩

theorem Alike.stated {g : TypeGraph} {e e' : Expr TypeVar} (h : Alike e e') (he : e.Stated g) : e'.Stated g :=
  fun hdeclaration hvalue => h.note ▸ he (h.isDeclaration ▸ hdeclaration) (h.hasValue ▸ hvalue)

/-- Expressions in order that are the same to the expression around them. -/
abbrev AllAlike : List (Expr TypeVar) → List (Expr TypeVar) → Prop := List.Forall₂ Alike

/-- Members of an object that are the same to it. -/
abbrev MembersAlike : List (String × Expr TypeVar) → List (String × Expr TypeVar) → Prop :=
  List.Forall₂ fun e e' => e'.1 = e.1 ∧ Alike e.2 e'.2

section alike

variable {es es' : List (Expr TypeVar)} {ms ms' : List (String × Expr TypeVar)}

theorem AllAlike.notes (h : AllAlike es es') : es'.map note = es.map note := by
  induction h with
  | nil => rfl
  | cons he _ ih => rw [List.map_cons, List.map_cons, he.note, ih]

theorem AllAlike.declareds (h : AllAlike es es') : declareds es' = declareds es := by
  induction h with
  | nil => rfl
  | cons he _ ih => rw [Expr.declareds, Expr.declareds, he.declared, ih]

/-- What carries over to an expression that is alike carries over to all of them. -/
theorem AllAlike.forall {P : Expr TypeVar → Prop} (hP : ∀ {e e'}, Alike e e' → P e → P e') (h : AllAlike es es')
    (hes : ∀ e ∈ es, P e) : ∀ e ∈ es', P e := by
  induction h with
  | nil => exact List.forall_mem_nil _
  | cons he _ ih =>
    obtain ⟨hfirst, hrest⟩ := List.forall_mem_cons.1 hes
    exact List.forall_mem_cons.2 ⟨hP he hfirst, ih hrest⟩

theorem MembersAlike.names (h : MembersAlike ms ms') : ms'.map (·.1) = ms.map (·.1) := by
  induction h with
  | nil => rfl
  | cons he _ ih => rw [List.map_cons, List.map_cons, he.1, ih]

theorem MembersAlike.all (h : MembersAlike ms ms') : AllAlike (ms.map (·.2)) (ms'.map (·.2)) := by
  induction h with
  | nil => exact .nil
  | cons he _ ih => exact .cons he.2 ih

theorem MembersAlike.declareds (h : MembersAlike ms ms') : namedDeclareds ms' = namedDeclareds ms := by
  induction h with
  | nil => rfl
  | cons he _ ih =>
    rw [namedDeclareds, namedDeclareds, he.2.declared, ih]

/-- What is said of the names and the types of all members. -/
theorem MembersAlike.forall {P : String → TypeVar → Prop} (h : MembersAlike ms ms')
    (hms : ∀ e ∈ ms, P e.1 e.2.note) : ∀ e ∈ ms', P e.1 e.2.note := by
  induction h with
  | nil => exact List.forall_mem_nil _
  | cons he _ ih =>
    obtain ⟨hfirst, hrest⟩ := List.forall_mem_cons.1 hms
    exact List.forall_mem_cons.2 ⟨by rw [he.1, he.2.note]; exact hfirst, ih hrest⟩

end alike

/-- What an arm of a match on variants says apart from its body. -/
def armHead (arm : VariantArm TypeVar (List (Expr TypeVar))) : String × TypeVar := (arm.variant, arm.payload)

/-! ### One node renews another -/

end Expr

/-- What is known of the answers: of the target for a use of a procedure, and of the one for a use of a module variable
of some type. -/
structure Replies where
  procedure : ProcedureUsage → Target → Prop
  moduleVariable : TypeVar → Target → Prop

namespace Expr

/-- The same expression with answers for its targets: what is inside may be another, but the operands are the same to
it. The records say what targets stand for. -/
inductive SameNode (r : Records) (c : Replies) : Expr TypeVar → Expr TypeVar → Prop
  | literal (m value) : SameNode r c (.literal m value) (.literal m value)
  | name (m path) : SameNode r c (.name m path) (.name m path)
  | localVar (m n) : SameNode r c (.localVar m n) (.localVar m n)
  | global {m target target'} (h : ∀ type, r.Reads target type → c.moduleVariable type target') :
    SameNode r c (.global m target) (.global m target')
  | procedure (m path i) : SameNode r c (.procedure m (.resolved path i)) (.procedure m (.resolved path i))
  | invoke {m target target' args args'} (h : ∀ usage, r.Uses target usage → c.procedure usage target')
    (hargs : AllAlike args args') : SameNode r c (.invoke m target args) (.invoke m target' args')
  | call {m callee callee' args args'} (hcallee : Alike callee callee') (hargs : AllAlike args args') :
    SameNode r c (.call m callee args) (.call m callee' args')
  | method {m receiver receiver' n args args'} (hreceiver : Alike receiver receiver') (hargs : AllAlike args args') :
    SameNode r c (.method m receiver n args) (.method m receiver' n args')
  | closure (m params body body' info) : SameNode r c (.closure m params body info) (.closure m params body' info)
  | define {m n isMutable value value'} (hvalue : Alike value value') :
    SameNode r c (.define m n isMutable value) (.define m n isMutable value')
  | declare (m n isMutable) : SameNode r c (.declare m n isMutable) (.declare m n isMutable)
  | assign {m target target' value value'} (htarget : Alike target target') (hvalue : Alike value value') :
    SameNode r c (.assign m target value) (.assign m target' value')
  | giveBack {m value value'} (hvalue : Alike value value') : SameNode r c (.giveBack m value) (.giveBack m value')
  | object {m members members'} (hmembers : MembersAlike members members') :
    SameNode r c (.object m members) (.object m members')
  | array {m elements elements'} (helements : AllAlike elements elements') :
    SameNode r c (.array m elements) (.array m elements')
  | repeated {m value value' size size'} (hvalue : Alike value value') (hsize : Alike size size') :
    SameNode r c (.repeated m value size) (.repeated m value' size')
  | member {m owner owner' n} (howner : Alike owner owner') : SameNode r c (.member m owner n) (.member m owner' n)
  | element {m owner owner' index index'} (howner : Alike owner owner') (hindex : Alike index index') :
    SameNode r c (.element m owner index) (.element m owner' index')
  | binary {m op left left' right right'} (hleft : Alike left left') (hright : Alike right right') :
    SameNode r c (.binary m op left right) (.binary m op left' right')
  | unary {m op operand operand'} (hoperand : Alike operand operand') :
    SameNode r c (.unary m op operand) (.unary m op operand')
  | variant {m n payload payload'} (hpayload : Alike payload payload') :
    SameNode r c (.variant m n payload) (.variant m n payload')
  | unwrap {m value value' n} (hvalue : Alike value value') : SameNode r c (.unwrap m value n) (.unwrap m value' n)
  | constant {m value value'} (hvalue : Alike value value') : SameNode r c (.constant m value) (.constant m value')
  | ifElse {m condition condition' yes yes' no no'} (hcondition : Alike condition condition') :
    SameNode r c (.ifElse m condition yes no) (.ifElse m condition' yes' no')
  | matchValue {m value value' arms arms' otherwise otherwise'} (hvalue : Alike value value')
    (harms : AllAlike (arms.map (·.1)) (arms'.map (·.1))) :
    SameNode r c (.matchValue m value arms otherwise) (.matchValue m value' arms' otherwise')
  | matchVariant {m value value' arms arms' otherwise otherwise'} (hvalue : Alike value value')
    (harms : arms'.map armHead = arms.map armHead) (hotherwise : otherwise' = none → otherwise = none) :
    SameNode r c (.matchVariant m value arms otherwise) (.matchVariant m value' arms' otherwise')

section same

variable {r : Records} {c : Replies} {e e' : Expr TypeVar}

theorem SameNode.alike (h : SameNode r c e e') : Alike e e' := by
  constructor
  case declared =>
    cases h with
    | invoke _ hargs => exact hargs.declareds
    | call hfirst hargs | method hfirst hargs => rw [declared, declared, hargs.declareds, hfirst.declared]
    | object hmembers => exact hmembers.declareds
    | array helements => exact helements.declareds
    | define h => rw [declared, declared, h.declared]
    | assign h h' | repeated h h' | element h h' | binary h h' => rw [declared, declared, h.declared, h'.declared]
    | giveBack h | member h | unary h | variant h | unwrap h | ifElse h | matchValue h | matchVariant h =>
      exact h.declared
    | _ => rfl
  all_goals cases h <;> rfl

theorem SameNode.operands (h : SameNode r c e e') : AllAlike e.operands e'.operands := by
  cases h with
  | invoke _ h | array h => exact h
  | object h => exact h.all
  | call hfirst hargs | method hfirst hargs => exact .cons hfirst hargs
  | assign h h' | repeated h h' | element h h' | binary h h' => exact .cons h (.cons h' .nil)
  | define h | giveBack h | member h | unary h | variant h | unwrap h | ifElse h | matchValue h | matchVariant h =>
    exact .cons h .nil
  | _ => exact .nil

/-- Except for references, what is recorded for an expression is recorded for the other one. -/
theorem SameNode.recorded {r' : Records} {p : Place} (h : SameNode r c e e') (hreference : Reference.ofNode e' = [])
    (he : e.Recorded r' p) : e'.Recorded r' p := by
  cases h with
  | name | global | procedure | invoke => cases hreference
  | call hfirst hargs | method hfirst hargs => simpa only [Recorded, hfirst.note, hargs.notes] using he
  | define h | giveBack h | member h | unary h | variant h | unwrap h | constant h | ifElse h =>
    simpa only [Recorded, h.note] using he
  | assign h h' | repeated h h' | element h h' | binary h h' => simpa only [Recorded, h.note, h'.note] using he
  | @object m _ _ h =>
    rw [Recorded, h.names]
    exact ⟨h.forall (P := fun n v => r'.Demands m.note (.hasMember n v)) he.1, he.2⟩
  | array h =>
    obtain ⟨element, helement, hall⟩ := he
    exact ⟨element, helement,
      h.forall (P := fun e => r'.Demands element (.unify e.note)) (fun h he => h.note ▸ he) hall⟩
  | @matchValue _ value _ _ _ _ _ h harms =>
    have hall := harms.forall (P := fun e => r'.Demands value.note (.unify e.note)) (fun h he => h.note ▸ he)
      (List.forall_mem_map.2 he)
    intro arm harm
    rw [h.note]
    exact hall _ (List.mem_map_of_mem harm)
  | @matchVariant _ _ _ arms arms' _ _ h harms hotherwise =>
    refine ⟨fun arm harm => ?_, fun hnone => ?_⟩
    · obtain ⟨arm', harm', heq⟩ := List.mem_map.1 (harms ▸ List.mem_map_of_mem (f := armHead) harm)
      obtain ⟨hvariant, hpayload⟩ := Prod.mk.inj heq
      rw [h.note, ← hvariant, ← hpayload]
      exact he.1 arm' harm'
    · have hnames : arms'.map (·.variant) = arms.map (·.variant) := by
        simpa [Function.comp_def, armHead] using congrArg (List.map Prod.fst) harms
      rw [h.note, hnames]
      exact he.2 (hotherwise hnone)
  | _ => exact he

theorem SameNode.formed {members : TypeVar → String → Prop} (h : SameNode r c e e') (he : e.Formed members) :
    e'.Formed members := by
  cases h with
  | assign htarget => exact htarget.isPlace.trans he
  | @method _ _ receiver' n _ _ hreceiver =>
    change members receiver'.note n
    rw [hreceiver.note]
    exact he
  | closure => exact he
  | _ => trivial

end same

/-- A node of a draft and one of the bound body that comes from it. -/
inductive Renewed (params : Path → List String) (r : Records) (c : Replies) :
    Place × Expr TypeVar → Place × Expr TypeVar → Prop
  | same {p e e'} (h : SameNode r c e e') : Renewed params r c (p, e) (p, e')
  | forwarded {p m target usage target' unit n} (huses : r.Uses target usage) (h : c.procedure usage target')
    (hn : n ∈ (Binder.forwarder m (params usage.path) usage target' unit).nodes p) :
    Renewed params r c (p, .procedure m target) n

/-- Nodes of a draft at any place become nodes that come from them. -/
abbrev NodesRenewed (params : Path → List String) (r : Records) (c : Replies)
    (nodes nodes' : Place → List (Place × Expr TypeVar)) : Prop :=
  ∀ p, ∀ n' ∈ nodes' p, ∃ n ∈ nodes p, Renewed params r c n n'

/-- An expression of a draft becomes one that is the same from outside and whose nodes come from its own. -/
structure Renews (params : Path → List String) (r : Records) (c : Replies) (e e' : Expr TypeVar) : Prop
    extends Alike e e' where
  nodes : NodesRenewed params r c (fun p => e.nodes p) fun p => e'.nodes p

/-- Expressions in order become others. -/
structure RenewsAll (params : Path → List String) (r : Records) (c : Replies) (es es' : List (Expr TypeVar)) :
    Prop where
  alike : AllAlike es es'
  nodes : NodesRenewed params r c (fun p => nodesOf p es) fun p => nodesOf p es'

section renewed

variable {params : Path → List String} {r : Records} {c : Replies} {e e' : Expr TypeVar}
  {nodes nodes' nodes₁ nodes₁' : Place → List (Place × Expr TypeVar)}

theorem NodesRenewed.nil : NodesRenewed params r c nodes fun _ => [] := fun _ => List.forall_mem_nil _

theorem NodesRenewed.append (h : NodesRenewed params r c nodes nodes') (h₁ : NodesRenewed params r c nodes₁ nodes₁')
    {d d' : List (String × TypeVar)} (hdeclared : d' = d) :
    NodesRenewed params r c (fun p => nodes p ++ nodes₁ (p.declare d)) fun p => nodes' p ++ nodes₁' (p.declare d') := by
  subst hdeclared
  refine fun p => List.forall_mem_append.2 ⟨fun n hn => ?_, fun n hn => ?_⟩
  · obtain ⟨n₀, hn₀, h⟩ := h p n hn
    exact ⟨n₀, List.mem_append_left _ hn₀, h⟩
  · obtain ⟨n₀, hn₀, h⟩ := h₁ _ n hn
    exact ⟨n₀, List.mem_append_right _ hn₀, h⟩

/-- What is bound in a block, a body or a constant of its own. -/
theorem NodesRenewed.inside (h : NodesRenewed params r c nodes nodes') (q : Place → Place) :
    NodesRenewed params r c (fun p => nodes (q p)) fun p => nodes' (q p) := fun p => h (q p)

/-- An expression becomes the same one, with what is inside renewed. -/
theorem Renews.of_same (hnodes : ∀ p, e.nodes p = (p, e) :: nodes p) (hnodes' : ∀ p, e'.nodes p = (p, e') :: nodes' p)
    (h : SameNode r c e e') (hrest : NodesRenewed params r c nodes nodes') : Renews params r c e e' := by
  refine ⟨h.alike, fun p => ?_⟩
  simp only [hnodes, hnodes', List.forall_mem_cons]
  refine ⟨⟨_, List.mem_cons_self, .same h⟩, fun n hn => ?_⟩
  obtain ⟨n₀, hn₀, h⟩ := hrest p n hn
  exact ⟨n₀, List.mem_cons_of_mem _ hn₀, h⟩

end renewed
end Expr

/-! ### Binding -/

namespace Binder

open Monomorph.Expr (Renews RenewsAll NodesRenewed AllAlike MembersAlike armHead)

/-- A binder whose answers to the usages noted in `r` are as `c` says. They lead along `R` through workspaces with `S`,
from where on `K` is known. -/
structure Serves (b : Binder SolveM) (R : Workspace → Workspace → Prop) (S K : Workspace → Prop) (r : Records)
    (c : Workspace → Replies) : Prop where
  kept : Kept R
  procedures : r.procedures = b.usages.procedures.toList
  globals : r.globals = b.usages.globals.toList
  procedure : ∀ usage ∈ b.usages.procedures, Ensures R S K (b.procedure usage) S
    fun t target => (c t).procedure usage target
  moduleVariable : ∀ usage ∈ b.usages.globals, Ensures R S K (b.moduleVariable usage) S
    fun t target => (c t).moduleVariable usage.type target
  allocate : ∀ span, Ensures R S K (SolveM.onGraph (allocate ⟨.unit, span⟩)) S fun _ _ => True

section serves

variable {b : Binder SolveM} {R : Workspace → Workspace → Prop} {S K K' : Workspace → Prop} {r : Records}
  {c : Workspace → Replies}

theorem Serves.known (h : b.Serves R S K r c) (hK : ∀ t, K' t → K t) : b.Serves R S K' r c where
  kept := h.kept
  procedures := h.procedures
  globals := h.globals
  procedure usage hu := (h.procedure usage hu).imp hK (fun _ _ _ hP => hP) h.kept
  moduleVariable usage hu := (h.moduleVariable usage hu).imp hK (fun _ _ _ hP => hP) h.kept
  allocate span := (h.allocate span).imp hK (fun _ _ _ hP => hP) h.kept

theorem bindProcedure_serves (h : b.Serves R S K r c) (span : Span) (target : Target) :
    Ensures R S K (b.bindProcedure span target) S fun t target' =>
      ∀ usage, r.Uses target usage → (c t).procedure usage target' := by
  unfold Binder.bindProcedure
  split
  · rename_i i
    split
    · rename_i usage husage
      refine (h.procedure usage (Array.mem_of_getElem? husage)).imp (fun _ ht => ht) (fun t target' _ hanswer => ?_)
        h.kept
      rintro usage' ⟨i', hi, hget⟩
      cases hi
      rw [h.procedures, Array.getElem?_toList, husage] at hget
      cases hget
      exact hanswer
    · exact .throw
  · rename_i hnot
    refine .pure h.kept fun t _ => ?_
    rintro usage ⟨i, rfl, -⟩
    exact (hnot i rfl).elim

theorem bindVariable_serves (h : b.Serves R S K r c) (span : Span) (target : Target) :
    Ensures R S K (b.bindVariable span target) S fun t target' =>
      ∀ type, r.Reads target type → (c t).moduleVariable type target' := by
  unfold Binder.bindVariable
  split
  · rename_i i
    split
    · rename_i usage husage
      refine (h.moduleVariable usage (Array.mem_of_getElem? husage)).imp (fun _ ht => ht)
        (fun t target' _ hanswer => ?_) h.kept
      rintro type ⟨i', usage', hi, hget, rfl⟩
      cases hi
      rw [h.globals, Array.getElem?_toList, husage] at hget
      cases hget
      exact hanswer
    · exact .throw
  · rename_i hnot
    refine .pure h.kept fun t _ => ?_
    rintro type ⟨i, usage, rfl, -⟩
    exact (hnot i rfl).elim

/-- A procedure used as a value becomes a closure, all nodes of which come from it. -/
theorem forward_renews (h : b.Serves R S K r c) (m : Mark TypeVar) (target : Target) :
    Ensures R S K (b.forward m target) S fun t e' => Renews b.params r (c t) (.procedure m target) e' := by
  unfold Binder.forward
  split
  · rename_i i
    split
    · rename_i usage husage
      refine .bind h.kept (h.procedure usage (Array.mem_of_getElem? husage)) fun target' =>
        .bind h.kept ((h.known fun _ ht => ht.2).allocate _) fun unit => .pure h.kept fun t ht =>
          ⟨⟨rfl, rfl, rfl, rfl, rfl⟩, fun p n hn => ⟨_, List.mem_cons_self, .forwarded ⟨i, rfl, ?_⟩ ht.2.1 hn⟩⟩
      rw [h.procedures, Array.getElem?_toList, husage]
    · exact .throw
  · rename_i hnot
    cases target with
    | pending i => exact (hnot i rfl).elim
    | resolved path i => exact .pure h.kept fun t _ => .of_same (fun _ => rfl) (fun _ => rfl) (.procedure m path i) .nil

/-! ### The induction -/

mutual

theorem expr_renews : (e : Expr TypeVar) → ∀ {K}, b.Serves R S K r c →
    Ensures R S K (expr b e) S fun t e' => Renews b.params r (c t) e e'
  | .literal m value, K, h => by
    rw [expr]
    exact .pure h.kept fun _ _ => .of_same (fun _ => rfl) (fun _ => rfl) (.literal m value) .nil
  | .name m path, K, h => by
    rw [expr]
    exact .pure h.kept fun _ _ => .of_same (fun _ => rfl) (fun _ => rfl) (.name m path) .nil
  | .localVar m name, K, h => by
    rw [expr]
    exact .pure h.kept fun _ _ => .of_same (fun _ => rfl) (fun _ => rfl) (.localVar m name) .nil
  | .global m target, K, h => by
    rw [expr]
    exact .bind h.kept (bindVariable_serves h m.span target) fun target' => .pure h.kept fun t ht =>
      .of_same (fun _ => rfl) (fun _ => rfl) (.global ht.1) .nil
  | .procedure m target, K, h => by
    rw [expr]
    exact forward_renews h m target
  | .invoke m target args, K, h => by
    rw [expr]
    exact .bind h.kept (bindProcedure_serves h m.span target) fun target' =>
      .bind h.kept (exprs_renews args (h.known fun _ ht => ht.2)) fun args' =>
        .pure h.kept fun t ⟨hargs, htarget, _⟩ =>
          .of_same (fun _ => rfl) (fun _ => rfl) (.invoke htarget hargs.alike) hargs.nodes
  | .call m callee args, K, h => by
    rw [expr]
    exact .bind h.kept (expr_renews callee h) fun callee' =>
      .bind h.kept (exprs_renews args (h.known fun _ ht => ht.2)) fun args' =>
        .pure h.kept fun t ⟨hargs, hcallee, _⟩ =>
          .of_same (fun _ => rfl) (fun _ => rfl) (.call hcallee.toAlike hargs.alike)
            (hcallee.nodes.append hargs.nodes hcallee.declared)
  | .method m receiver name args, K, h => by
    rw [expr]
    exact .bind h.kept (expr_renews receiver h) fun receiver' =>
      .bind h.kept (exprs_renews args (h.known fun _ ht => ht.2)) fun args' =>
        .pure h.kept fun t ⟨hargs, hreceiver, _⟩ =>
          .of_same (fun _ => rfl) (fun _ => rfl) (.method hreceiver.toAlike hargs.alike)
            (hreceiver.nodes.append hargs.nodes hreceiver.declared)
  | .closure m params body info, K, h => by
    rw [expr]
    exact .bind h.kept (exprs_renews body h) fun body' => .pure h.kept fun t ht =>
      .of_same (fun _ => rfl) (fun _ => rfl) (.closure m params body body' info)
        (ht.1.nodes.inside fun p => p.enter params info)
  | .define m name isMutable value, K, h => by
    rw [expr]
    exact .bind h.kept (expr_renews value h) fun value' => .pure h.kept fun t ht =>
      .of_same (fun _ => rfl) (fun _ => rfl) (.define ht.1.toAlike) ht.1.nodes
  | .declare m name isMutable, K, h => by
    rw [expr]
    exact .pure h.kept fun _ _ => .of_same (fun _ => rfl) (fun _ => rfl) (.declare m name isMutable) .nil
  | .assign m target value, K, h => by
    rw [expr]
    exact .bind h.kept (expr_renews target h) fun target' =>
      .bind h.kept (expr_renews value (h.known fun _ ht => ht.2)) fun value' =>
        .pure h.kept fun t ⟨hvalue, htarget, _⟩ =>
          .of_same (fun _ => rfl) (fun _ => rfl) (.assign htarget.toAlike hvalue.toAlike)
            (hvalue.nodes.append htarget.nodes hvalue.declared)
  | .giveBack m value, K, h => by
    rw [expr]
    exact .bind h.kept (expr_renews value h) fun value' => .pure h.kept fun t ht =>
      .of_same (fun _ => rfl) (fun _ => rfl) (.giveBack ht.1.toAlike) ht.1.nodes
  | .object m members, K, h => by
    rw [expr]
    exact .bind h.kept (namedExprs_renews members h) fun members' => .pure h.kept fun t ⟨⟨halike, hnodes⟩, _⟩ =>
      .of_same (fun _ => rfl) (fun _ => rfl) (.object halike) hnodes
  | .array m elements, K, h => by
    rw [expr]
    exact .bind h.kept (exprs_renews elements h) fun elements' => .pure h.kept fun t ht =>
      .of_same (fun _ => rfl) (fun _ => rfl) (.array ht.1.alike) ht.1.nodes
  | .repeated m value size, K, h => by
    rw [expr]
    exact .bind h.kept (expr_renews value h) fun value' =>
      .bind h.kept (expr_renews size (h.known fun _ ht => ht.2)) fun size' =>
        .pure h.kept fun t ⟨hsize, hvalue, _⟩ =>
          .of_same (fun _ => rfl) (fun _ => rfl) (.repeated hvalue.toAlike hsize.toAlike)
            (hvalue.nodes.append hsize.nodes hvalue.declared)
  | .member m owner name, K, h => by
    rw [expr]
    exact .bind h.kept (expr_renews owner h) fun owner' => .pure h.kept fun t ht =>
      .of_same (fun _ => rfl) (fun _ => rfl) (.member ht.1.toAlike) ht.1.nodes
  | .element m owner index, K, h => by
    rw [expr]
    exact .bind h.kept (expr_renews owner h) fun owner' =>
      .bind h.kept (expr_renews index (h.known fun _ ht => ht.2)) fun index' =>
        .pure h.kept fun t ⟨hindex, howner, _⟩ =>
          .of_same (fun _ => rfl) (fun _ => rfl) (.element howner.toAlike hindex.toAlike)
            (howner.nodes.append hindex.nodes howner.declared)
  | .binary m op left right, K, h => by
    rw [expr]
    exact .bind h.kept (expr_renews left h) fun left' =>
      .bind h.kept (expr_renews right (h.known fun _ ht => ht.2)) fun right' =>
        .pure h.kept fun t ⟨hright, hleft, _⟩ =>
          .of_same (fun _ => rfl) (fun _ => rfl) (.binary hleft.toAlike hright.toAlike)
            (hleft.nodes.append hright.nodes hleft.declared)
  | .unary m op operand, K, h => by
    rw [expr]
    exact .bind h.kept (expr_renews operand h) fun operand' => .pure h.kept fun t ht =>
      .of_same (fun _ => rfl) (fun _ => rfl) (.unary ht.1.toAlike) ht.1.nodes
  | .variant m name payload, K, h => by
    rw [expr]
    exact .bind h.kept (expr_renews payload h) fun payload' => .pure h.kept fun t ht =>
      .of_same (fun _ => rfl) (fun _ => rfl) (.variant ht.1.toAlike) ht.1.nodes
  | .unwrap m value name, K, h => by
    rw [expr]
    exact .bind h.kept (expr_renews value h) fun value' => .pure h.kept fun t ht =>
      .of_same (fun _ => rfl) (fun _ => rfl) (.unwrap ht.1.toAlike) ht.1.nodes
  | .constant m value, K, h => by
    rw [expr]
    exact .bind h.kept (expr_renews value h) fun value' => .pure h.kept fun t ht =>
      .of_same (fun _ => rfl) (fun _ => rfl) (.constant ht.1.toAlike) (ht.1.nodes.inside fun _ => .isolated)
  | .ifElse m condition yes no, K, h => by
    rw [expr]
    exact .bind h.kept (expr_renews condition h) fun condition' =>
      .bind h.kept (exprs_renews yes (h.known fun _ ht => ht.2)) fun yes' =>
        .bind h.kept (exprs_renews no (h.known fun _ ht => ht.2.2)) fun no' =>
          .pure h.kept fun t ⟨hno, hyes, hcondition, _⟩ =>
            .of_same (fun _ => rfl) (fun _ => rfl) (.ifElse hcondition.toAlike)
              (hcondition.nodes.append (hyes.nodes.append hno.nodes (d := []) rfl) hcondition.declared)
  | .matchValue m value arms otherwise, K, h => by
    rw [expr]
    refine .bind h.kept (expr_renews value h) fun value' =>
      .bind h.kept (armValues_renews arms (h.known fun _ ht => ht.2)) fun values' =>
        .bind h.kept (armBodies_renews arms (h.known fun _ ht => ht.2.2)) fun bodies' =>
          .bind h.kept (exprs_renews otherwise (h.known fun _ ht => ht.2.2.2)) fun otherwise' =>
            .pure h.kept fun t ⟨hotherwise, ⟨hlength, hbodies⟩, ⟨halike, hvalues⟩, hvalue, _⟩ => ?_
    have hzip : values'.length = bodies'.length := by rw [hlength, ← halike.length_eq, List.length_map]
    simp only [← armValueNodes_zip hzip, ← armBodyNodes_zip _ hzip] at hvalues hbodies
    have hrest := hvalues.append (hbodies.append hotherwise.nodes (d := []) rfl) (d := []) rfl
    refine .of_same (fun _ => rfl) (fun _ => rfl) (.matchValue hvalue.toAlike ?_)
      (hvalue.nodes.append hrest hvalue.declared)
    rw [List.map_fst_zip hzip.le]
    exact halike
  | .matchVariant m value arms (some otherwise), K, h => by
    rw [expr]
    exact .bind h.kept (expr_renews value h) fun value' =>
      .bind h.kept (variantArms_renews arms (h.known fun _ ht => ht.2)) fun arms' =>
        .bind h.kept (exprs_renews otherwise (h.known fun _ ht => ht.2.2)) fun otherwise' =>
          .pure h.kept fun t ⟨hotherwise, ⟨hheads, harms⟩, hvalue, _⟩ =>
            .of_same (fun _ => rfl) (fun _ => rfl) (.matchVariant hvalue.toAlike hheads nofun)
              (hvalue.nodes.append (harms.append hotherwise.nodes (d := []) rfl) hvalue.declared)
  | .matchVariant m value arms none, K, h => by
    rw [expr]
    exact .bind h.kept (expr_renews value h) fun value' =>
      .bind h.kept (variantArms_renews arms (h.known fun _ ht => ht.2)) fun arms' =>
        .pure h.kept fun t ⟨⟨hheads, harms⟩, hvalue, _⟩ =>
          .of_same (fun _ => rfl) (fun _ => rfl) (.matchVariant hvalue.toAlike hheads fun _ => rfl)
            (hvalue.nodes.append harms hvalue.declared)

theorem exprs_renews : (es : List (Expr TypeVar)) → ∀ {K}, b.Serves R S K r c →
    Ensures R S K (exprs b es) S fun t es' => RenewsAll b.params r (c t) es es'
  | [], K, h => by
    rw [exprs]
    exact .pure h.kept fun _ _ => ⟨.nil, .nil⟩
  | e :: rest, K, h => by
    rw [exprs]
    exact .bind h.kept (expr_renews e h) fun e' =>
      .bind h.kept (exprs_renews rest (h.known fun _ ht => ht.2)) fun rest' => .pure h.kept fun t ⟨hrest, he, _⟩ =>
        ⟨.cons he.toAlike hrest.alike, he.nodes.append hrest.nodes he.declared⟩

theorem namedExprs_renews : (es : List (String × Expr TypeVar)) → ∀ {K}, b.Serves R S K r c →
    Ensures R S K (namedExprs b es) S fun t es' => MembersAlike es es' ∧
      NodesRenewed b.params r (c t) (fun p => Expr.namedNodes p es) fun p => Expr.namedNodes p es'
  | [], K, h => by
    rw [namedExprs]
    exact .pure h.kept fun _ _ => ⟨.nil, .nil⟩
  | (name, e) :: rest, K, h => by
    rw [namedExprs]
    exact .bind h.kept (expr_renews e h) fun e' =>
      .bind h.kept (namedExprs_renews rest (h.known fun _ ht => ht.2)) fun rest' =>
        .pure h.kept fun t ⟨hrest, he, _⟩ =>
          ⟨.cons ⟨rfl, he.toAlike⟩ hrest.1, he.nodes.append hrest.2 he.declared⟩

theorem armValues_renews : (arms : List (Expr TypeVar × List (Expr TypeVar))) → ∀ {K}, b.Serves R S K r c →
    Ensures R S K (armValues b arms) S fun t values => AllAlike (arms.map (·.1)) values ∧
      NodesRenewed b.params r (c t) (fun _ => Expr.armValueNodes arms) fun _ => values.flatMap (Expr.nodes .isolated)
  | [], K, h => by
    rw [armValues]
    exact .pure h.kept fun _ _ => ⟨.nil, .nil⟩
  | (e, _) :: rest, K, h => by
    rw [armValues]
    exact .bind h.kept (expr_renews e h) fun e' =>
      .bind h.kept (armValues_renews rest (h.known fun _ ht => ht.2)) fun rest' =>
        .pure h.kept fun t ⟨hrest, he, _⟩ =>
          ⟨.cons he.toAlike hrest.1, (he.nodes.inside fun _ => .isolated).append hrest.2 (d := []) rfl⟩

theorem armBodies_renews : (arms : List (Expr TypeVar × List (Expr TypeVar))) → ∀ {K}, b.Serves R S K r c →
    Ensures R S K (armBodies b arms) S fun t bodies => bodies.length = arms.length ∧
      NodesRenewed b.params r (c t) (fun p => Expr.armBodyNodes p arms) fun p => bodies.flatMap (Expr.nodesOf p)
  | [], K, h => by
    rw [armBodies]
    exact .pure h.kept fun _ _ => ⟨rfl, .nil⟩
  | (_, body) :: rest, K, h => by
    rw [armBodies]
    exact .bind h.kept (exprs_renews body h) fun body' =>
      .bind h.kept (armBodies_renews rest (h.known fun _ ht => ht.2)) fun rest' =>
        .pure h.kept fun t ⟨hrest, hbody, _⟩ =>
          ⟨congrArg Nat.succ hrest.1, hbody.nodes.append hrest.2 (d := []) rfl⟩

theorem variantArms_renews : (arms : List (VariantArm TypeVar (List (Expr TypeVar)))) → ∀ {K},
    b.Serves R S K r c → Ensures R S K (variantArms b arms) S fun t arms' => arms'.map armHead = arms.map armHead ∧
      NodesRenewed b.params r (c t) (fun p => Expr.variantArmNodes p arms) fun p => Expr.variantArmNodes p arms'
  | [], K, h => by
    rw [variantArms]
    exact .pure h.kept fun _ _ => ⟨rfl, .nil⟩
  | ⟨variant, binding, payload, body⟩ :: rest, K, h => by
    rw [variantArms]
    exact .bind h.kept (exprs_renews body h) fun body' =>
      .bind h.kept (variantArms_renews rest (h.known fun _ ht => ht.2)) fun rest' =>
        .pure h.kept fun t ⟨hrest, hbody, _⟩ => ⟨congrArg (List.cons (variant, payload)) hrest.1,
          (hbody.nodes.inside fun p => p.bind binding payload).append hrest.2 (d := []) rfl⟩

end

end serves

/-- However usages are answered, the nodes of bound expressions come from those before. -/
theorem exprs_renewed {b : Binder SolveM} {es es' : List (Expr TypeVar)} {w w' : Workspace}
    (h : b.exprs es w = .ok es' w') : ∃ params r c, RenewsAll params r c es es' := by
  have hserves : b.Serves (fun _ _ => True) (fun _ => True) (fun _ => True)
      ⟨[], b.usages.procedures.toList, b.usages.globals.toList⟩ fun _ => ⟨fun _ _ => True, fun _ _ => True⟩ :=
    have htrivial {α : Type} {x : SolveM α} : Ensures (fun _ _ => True) (fun _ => True) (fun _ => True) x
        (fun _ => True) fun _ _ => True := ⟨fun _ _ _ => ⟨trivial, trivial, fun _ _ => trivial⟩⟩
    ⟨⟨fun _ => trivial, fun _ _ => trivial⟩, rfl, rfl, fun _ _ => htrivial, fun _ _ => htrivial, fun _ => htrivial⟩
  exact ⟨_, _, _, ((exprs_renews es hserves).ok trivial (fun _ _ => trivial) h).2.2 w' trivial⟩

end Binder
end Monomorph
