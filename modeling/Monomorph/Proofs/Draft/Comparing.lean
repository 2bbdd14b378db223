import Mathlib.Data.List.Forall2
import Monomorph.Proofs.Expr
import Monomorph.Proofs.Outcome

/-! # Drafting compared

Drafting goes over a body in the same steps, whatever variables there are already and whatever the symbols around are
made of. So where the steps of two draftings compare, the draftings do (`DraftM.expr_compares`): the second one gives
what the first one gives, with its variables replaced. Of the locals around, only those matter that the body sees
(`Expr.seen`). -/

namespace Monomorph

open Outcome

/-! ### Expressions that do not see a local -/

/-- The name of the local that the target could stand for. -/
def Target.seen : Target → List String
  | .resolved path _ => path.localName?.toList
  | .pending _ => []

namespace Expr

variable {α : Type}

mutual

/-- The names of locals that the expression may read or give a value. -/
def seen : Expr α → List String
  | .literal .. => []
  | .name _ path => path.localName?.toList
  | .localVar _ n => [n]
  | .global _ target => target.seen
  | .procedure _ target => target.seen
  | .invoke _ _ args => seenAll args
  | .call _ callee args => seen callee ++ seenAll args
  | .method _ receiver _ args => seen receiver ++ seenAll args
  | .closure _ _ body _ => seenAll body
  | .define _ _ _ value => seen value
  | .declare .. => []
  | .assign _ target value => seen value ++ seen target
  | .giveBack _ value => seen value
  | .object _ members => seenNamed members
  | .array _ elements => seenAll elements
  | .repeated _ value size => seen value ++ seen size
  | .member _ owner _ => seen owner
  | .element _ owner index => seen owner ++ seen index
  | .binary _ _ left right => seen left ++ seen right
  | .unary _ _ operand => seen operand
  | .variant _ _ payload => seen payload
  | .unwrap _ value _ => seen value
  | .constant _ value => seen value
  | .ifElse _ condition yes no => seen condition ++ (seenAll yes ++ seenAll no)
  | .matchValue _ value arms otherwise => seen value ++ (seenArms arms ++ seenAll otherwise)
  | .matchVariant _ value arms (some otherwise) => seen value ++ (seenVariantArms arms ++ seenAll otherwise)
  | .matchVariant _ value arms none => seen value ++ seenVariantArms arms

/-- The names of locals that expressions in order may read or give a value. -/
def seenAll : List (Expr α) → List String
  | [] => []
  | e :: rest => seen e ++ seenAll rest

/-- The names of locals that the members of an object may read or give a value. -/
def seenNamed : List (String × Expr α) → List String
  | [] => []
  | (_, e) :: rest => seen e ++ seenNamed rest

/-- The names of locals that the arms of a match against constants may read or give a value. -/
def seenArms : List (Expr α × List (Expr α)) → List String
  | [] => []
  | (e, body) :: rest => (seen e ++ seenAll body) ++ seenArms rest

/-- The names of locals that the arms of a match on variants may read or give a value. -/
def seenVariantArms : List (VariantArm α (List (Expr α))) → List String
  | [] => []
  | ⟨_, _, _, body⟩ :: rest => seenAll body ++ seenVariantArms rest

end

end Expr

/-! ### Symbols and locals -/

/-- What those who refer to a symbol see of it: its path and, if it is a procedure, its parameters. -/
def Symbol.interface (s : Symbol) : Path × Option (List String) := (s.path, s.declaration.params?)

def Local.mapVars (f : TypeVar → TypeVar) (l : Local) : Local := { l with type := f l.type }

namespace DraftM

/-- Every name means symbols of the same interface. -/
def SameInterfaces (context context' : DraftContext) : Prop :=
  ∀ path, ((context.symbols.resolve path context.user).bind context.symbols.get?).map Symbol.interface =
    ((context'.symbols.resolve path context'.user).bind context'.symbols.get?).map Symbol.interface

/-- Two values that were drafted in blocks of their own: the second one is the image of the first, and the blocks at the
end are related. -/
abbrev Ended {α β : Type} (B : Block → Block → Prop) (φ : α → β) (a : α × Block) (b : β × Block) : Prop :=
  b.1 = φ a.1 ∧ B a.2 b.2

/-- The steps of two draftings compare: the second one does the same with all variables replaced by `f`. Only locals are
looked up that are `asked` for. -/
structure Compares (C : Comparison DraftM DraftM) (f : TypeVar → TypeVar) (S : Drafting → Drafting → Prop)
    (B : Block → Block → Prop) (asked : String → Prop) : Prop where
  throw : ∀ {α β : Type} {V : α → β → Prop} (e : TypeError), C.Holds V (throw e : DraftM α) (throw e : DraftM β)
  get_bind : ∀ {α β : Type} {V : α → β → Prop} {k : Drafting → DraftM α} {k' : Drafting → DraftM β},
    (∀ s s', S s s' → C.Holds V (k s) (k' s')) → C.Holds V (get >>= k) (get >>= k')
  typeOf? : ∀ {s s' name}, S s s' → asked name → s'.scope.typeOf? name = (s.scope.typeOf? name).map f
  returns : ∀ {s s'}, S s s' →
    (s'.scope.head?.map Frame.returns).getD default = f ((s.scope.head?.map Frame.returns).getD default)
  fresh : C.Holds (fun v w => w = f v) fresh fresh
  unit : ∀ span, C.Holds (fun v w => w = f v) (unit span) (unit span)
  emit : ∀ target span d, C.Holds Eq (emit target span d) (emit (f target) span (d.mapVars f))
  useProcedure : ∀ usage, C.Holds Eq (useProcedure usage) (useProcedure (usage.mapVars f))
  useVariable : ∀ usage, C.Holds Eq (useVariable usage) (useVariable (usage.mapVars f))
  accessLocal : ∀ {name}, asked name → ∀ span assigned,
    C.Holds (fun a b => b = a.map f) (accessLocal name span assigned) (accessLocal name span assigned)
  declare : ∀ (name : String) (l : Local), C.Holds Eq (modifyScope (Scope.modifyBlock fun b => b.declare name l))
    (modifyScope (Scope.modifyBlock fun b => b.declare name (l.mapVars f)))
  giveBack : C.Holds Eq (modifyScope (Scope.modifyBlock fun b => { b with alwaysReturns := true }))
    (modifyScope (Scope.modifyBlock fun b => { b with alwaysReturns := true }))
  joinArms : ∀ {arms arms' : List Block}, List.Forall₂ B arms arms' →
    C.Holds Eq (modifyScope (Scope.joinArms arms)) (modifyScope (Scope.joinArms arms'))
  empty : B .empty .empty
  binding : ∀ name v, B (Block.empty.declare name ⟨v, true, false⟩) (Block.empty.declare name ⟨f v, true, false⟩)
  inBlock : ∀ {α β : Type} {φ : α → β} {x : DraftM α} {y : DraftM β} {block block' : Block}, B block block' →
    C.Holds (fun a b => b = φ a) x y → C.Holds (Ended B φ) (inBlock block x) (inBlock block' y)
  inFrame : ∀ {α β : Type} {φ : α → β} {x : DraftM α} {y : DraftM β} (params : List String) (args : List TypeVar)
    (returns : TypeVar) (span : Span), C.Holds (fun a b => b = φ a) x y →
      C.Holds (fun a b => b = (φ a.1, a.2) ∧ ∀ name ∈ a.2.names, asked name)
        (inFrame (.ofParams (params.zip args) returns) span x)
        (inFrame (.ofParams (params.zip (args.map f)) (f returns)) span y)
  isolated : ∀ {α β : Type} {φ : α → β} {x : DraftM α} {y : DraftM β},
    C.Holds (fun a b => b = φ a) x y → C.Holds (fun a b => b = φ a) (isolated x) (isolated y)

variable {C : Comparison DraftM DraftM} {f : TypeVar → TypeVar} {S : Drafting → Drafting → Prop}
  {B : Block → Block → Prop} {asked : String → Prop} {context context' : DraftContext}

/-- Variables allocated one after another. -/
theorem freshFor_compares {γ : Type} (h : C.Holds (fun v w => w = f v) fresh fresh) (l : List γ) :
    C.Holds (fun vs ws => ws = vs.map f) (freshFor l) (freshFor l) := by
  induction l with
  | nil => exact C.pure rfl
  | cons _ l ih => exact C.bind_map h fun _ => C.bind_map ih fun _ => C.pure rfl

namespace Compares

theorem typed (h : Compares C f S B asked) (base : BaseKind) (span : Span) :
    C.Holds (fun v w => w = f v) (typed base span) (typed base span) :=
  C.bind_map h.fresh fun _ => C.bind_eq (h.emit _ _ _) fun _ => C.pure rfl

theorem returnType (h : Compares C f S B asked) : C.Holds (fun v w => w = f v) returnType returnType :=
  h.get_bind fun _ _ hs => C.pure (h.returns hs)

theorem targetPath (h : Compares C f S B asked) (target : Target) (span : Span) :
    C.Holds (fun a b => b = a ∧ ∀ n ∈ a.localName?.toList, n ∈ target.seen) (targetPath target span)
      (targetPath target span) := by
  cases target with
  | pending => exact h.throw _
  | resolved path variant => exact C.pure ⟨rfl, fun _ hn => hn⟩

/-! ### References -/

theorem invocation (h : Compares C f S B asked) (path : Path) (args : List (Expr TypeVar)) (span : Span) :
    C.Holds (fun a b => b = a.map f) (invocation path args span) (invocation path (Expr.mapAll f args) span) := by
  refine C.bind_map h.fresh fun returns => ?_
  rw [Expr.notes_mapAll, Expr.spans_mapAll]
  exact C.bind_eq (h.useProcedure _) fun _ => C.pure (by rw [Expr.map]; rfl)

theorem callsProcedure (h : Compares C f S B asked) (hcontext : SameInterfaces context context') {path : Path}
    (hpath : ∀ n ∈ path.localName?.toList, asked n) :
    C.Holds Eq (callsProcedure context path) (callsProcedure context' path) := by
  refine h.get_bind fun s s' hs => C.pure ?_
  have hlocal : (path.localName?.any fun name => (s'.scope.typeOf? name).isSome) =
      path.localName?.any fun name => (s.scope.typeOf? name).isSome := by
    cases hname : path.localName? with
    | none => rfl
    | some name =>
      rw [Option.any_some, Option.any_some, h.typeOf? hs (hpath name (by rw [hname]; exact List.mem_singleton_self _)),
        Option.isSome_map]
  have hfound := hcontext path
  rw [hlocal]
  generalize (context.symbols.resolve path context.user).bind context.symbols.get? = found at hfound
  generalize (context'.symbols.resolve path context'.user).bind context'.symbols.get? = found' at hfound
  cases found with
  | none =>
    obtain rfl : found' = none := Option.map_eq_none_iff.1 hfound.symm
    rfl
  | some symbol =>
    obtain ⟨symbol', rfl, hsymbol⟩ := Option.map_eq_some_iff.1 hfound.symm
    obtain ⟨-, hparams⟩ := Prod.mk.inj hsymbol
    dsimp only [Declaration.isProcedure]
    rw [hparams]

theorem accessSymbol (h : Compares C f S B asked) (hcontext : SameInterfaces context context') (path : Path)
    (span : Span) (assigned : Bool) :
    C.Holds (fun a b => b = a.map f) (accessSymbol context path span assigned)
      (accessSymbol context' path span assigned) := by
  have hfound := hcontext path
  unfold DraftM.accessSymbol
  generalize (context.symbols.resolve path context.user).bind context.symbols.get? = found at hfound
  generalize (context'.symbols.resolve path context'.user).bind context'.symbols.get? = found' at hfound
  cases found with
  | none =>
    obtain rfl : found' = none := Option.map_eq_none_iff.1 hfound.symm
    exact h.throw _
  | some symbol =>
    obtain ⟨symbol', rfl, hsymbol⟩ := Option.map_eq_some_iff.1 hfound.symm
    obtain ⟨hpath, hparams⟩ := Prod.mk.inj hsymbol
    dsimp only
    rw [hpath, hparams]
    split <;> cases assigned
    · exact C.bind_map h.fresh fun _ => C.bind_eq (h.useVariable _) fun _ => C.pure (by rw [Expr.map]; rfl)
    · exact h.throw _
    · refine C.bind_map (freshFor_compares h.fresh _) fun args => C.bind_map h.fresh fun returns =>
        C.bind_map h.fresh fun type => C.bind_eq (h.emit _ _ _) fun _ => ?_
      exact C.bind_eq (h.useProcedure _) fun _ => C.pure (by rw [Expr.map]; rfl)
    · exact h.throw _

theorem access (h : Compares C f S B asked) (hcontext : SameInterfaces context context') {path : Path}
    (hpath : ∀ n ∈ path.localName?.toList, asked n) (span : Span) (assigned : Bool) :
    C.Holds (fun a b => b = a.map f) (access context path span assigned) (access context' path span assigned) := by
  unfold DraftM.access
  split
  · rename_i name hname
    have hname := hpath name (by rw [hname]; exact List.mem_singleton_self _)
    refine C.bind_map (h.accessLocal hname _ _) fun found => ?_
    cases found with
    | some type => exact C.pure (by rw [Expr.map]; rfl)
    | none => exact h.accessSymbol hcontext _ _ _
  · exact h.accessSymbol hcontext _ _ _

/-- A reference by a target that is written into the tree. -/
theorem accessTarget (h : Compares C f S B asked) (hcontext : SameInterfaces context context') {target : Target}
    (htarget : ∀ n ∈ target.seen, asked n) (span : Span) :
    C.Holds (fun a b => b = a.map f)
      (DraftM.targetPath target span >>= fun path => DraftM.access context path span false)
      (DraftM.targetPath target span >>= fun path => DraftM.access context' path span false) := by
  refine C.bind (h.targetPath target span) fun {a b} hab => ?_
  obtain ⟨rfl, hseen⟩ := hab
  exact h.access hcontext (fun n hn => htarget n (hseen n hn)) _ _

/-! ### Demands and arms -/

theorem unifyElements (h : Compares C f S B asked) (element : TypeVar) (es : List (Expr TypeVar)) :
    C.Holds Eq (unifyElements element es) (unifyElements (f element) (Expr.mapAll f es)) := by
  induction es with
  | nil => exact C.pure rfl
  | cons e es ih =>
    rw [Expr.mapAll, DraftM.unifyElements, DraftM.unifyElements, Expr.span_map, Expr.note_map]
    exact C.bind_eq (h.emit _ _ _) fun _ => ih

theorem binaryType (h : Compares C f S B asked) (op : BinaryOp) (left right : Expr TypeVar) (span : Span) :
    C.Holds (fun v w => w = f v) (binaryType op left right span)
      (binaryType op (left.map f) (right.map f) span) := by
  unfold DraftM.binaryType
  rw [Expr.note_map, Expr.note_map, Expr.span_map]
  split
  · exact C.bind_eq (h.emit _ _ _) fun _ => C.bind_eq (h.emit _ _ _) fun _ => C.pure rfl
  split
  · exact C.bind_eq (h.emit _ _ _) fun _ => C.bind_eq (h.emit _ _ _) fun _ => h.typed _ _
  split
  · exact C.bind_eq (h.emit _ _ _) fun _ => h.typed _ _
  · exact C.bind_eq (h.emit _ _ _) fun _ => C.bind_eq (h.emit _ _ _) fun _ => C.pure rfl

end Compares

section ended

variable {α β : Type} {φ : α → β} {arms : List (α × Block)} {arms' : List (β × Block)}

theorem map_fst_of_ended (h : List.Forall₂ (Ended B φ) arms arms') : arms'.map (·.1) = (arms.map (·.1)).map φ := by
  induction h with
  | nil => rfl
  | cons ha _ ih => rw [List.map_cons, List.map_cons, List.map_cons, ih, ha.1]

theorem map_snd_of_ended (h : List.Forall₂ (Ended B φ) arms arms') :
    List.Forall₂ B (arms.map (·.2)) (arms'.map (·.2)) := by
  induction h with
  | nil => exact .nil
  | cons ha _ ih => exact .cons ha.2 ih

end ended

/-! ### Expressions -/

section walk

variable {γ : Type}

/-- What is seen in two parts. -/
theorem asked_append {l l' : List String} (h : ∀ n ∈ l ++ l', asked n) :
    (∀ n ∈ l, asked n) ∧ ∀ n ∈ l', asked n :=
  List.forall_mem_append.1 h

mutual

theorem expr_compares (h : Compares C f S B asked) (hcontext : SameInterfaces context context') :
    (e : Expr γ) → (∀ n ∈ e.seen, asked n) →
      C.Holds (fun a b => b = a.map f) (expr context e) (expr context' e)
  | .literal m value, _ => by
    rw [expr, expr]
    exact C.bind_map (h.typed _ _) fun _ => C.pure (by rw [Expr.map]; rfl)
  | .name m path, hseen => by
    rw [expr, expr]
    exact h.access hcontext hseen _ _
  | .localVar m name, hseen => by
    have hseen : ∀ n ∈ (Path.single name).localName?.toList, asked n := hseen
    rw [expr, expr]
    exact h.access hcontext hseen _ _
  | .global m target, hseen => by
    rw [expr, expr]
    exact h.accessTarget hcontext hseen _
  | .procedure m target, hseen => by
    rw [expr, expr]
    exact h.accessTarget hcontext hseen _
  | .invoke m target args, hseen => by
    rw [expr, expr]
    refine C.bind (h.targetPath target m.span) fun {path path'} hpath => ?_
    obtain ⟨rfl, -⟩ := hpath
    exact C.bind_map (exprs_compares h hcontext args hseen) fun args => h.invocation path' args m.span
  | .call m callee args, hseen => by
    obtain ⟨hcallee, hargs⟩ := asked_append hseen
    have hdirect (path : Path) : C.Holds (fun a b => b = a.map f)
        (exprs context args >>= fun args => invocation path args m.span)
        (exprs context' args >>= fun args => invocation path args m.span) :=
      C.bind_map (exprs_compares h hcontext args hargs) fun args => h.invocation path args m.span
    have hvalue : C.Holds (fun a b => b = a.map f)
        (do
          let callee ← expr context callee
          let args ← exprs context args
          let returns ← fresh
          emit callee.note m.span (.hasSignature (args.map Expr.note) returns)
          return Expr.call ⟨m.span, returns⟩ callee args)
        (do
          let callee ← expr context' callee
          let args ← exprs context' args
          let returns ← fresh
          emit callee.note m.span (.hasSignature (args.map Expr.note) returns)
          return Expr.call ⟨m.span, returns⟩ callee args) := by
      refine C.bind_map (expr_compares h hcontext callee hcallee) fun callee => ?_
      refine C.bind_map (exprs_compares h hcontext args hargs) fun args => C.bind_map h.fresh fun returns => ?_
      rw [Expr.note_map, Expr.notes_mapAll]
      exact C.bind_eq (h.emit _ _ _) fun _ => C.pure (by rw [Expr.map]; rfl)
    cases callee with
    | name n path =>
      rw [expr, expr]
      refine C.bind_eq (h.callsProcedure hcontext hcallee) fun direct => ?_
      cases direct with
      | true => exact hdirect path
      | false => exact hvalue
    | _ => exact hvalue
  | .method m receiver name args, hseen => by
    obtain ⟨hreceiver, hargs⟩ := asked_append hseen
    rw [expr, expr]
    refine C.bind_map (expr_compares h hcontext receiver hreceiver) fun receiver => ?_
    refine C.bind_map (exprs_compares h hcontext args hargs) fun args => C.bind_map h.fresh fun called => ?_
    rw [Expr.note_map, Expr.notes_mapAll]
    refine C.bind_eq (h.emit _ _ _) fun _ => C.bind_map h.fresh fun returns => ?_
    exact C.bind_eq (h.emit _ _ _) fun _ => C.pure (by rw [Expr.map]; rfl)
  | .closure m params body _, hseen => by
    rw [expr, expr]
    refine C.bind_map (freshFor_compares h.fresh params) fun args => C.bind_map h.fresh fun returns => ?_
    refine C.bind (h.inFrame params args returns m.span (exprs_compares h hcontext body hseen)) fun {a b} hab => ?_
    obtain ⟨rfl, hasked⟩ := hab
    obtain ⟨body, captured⟩ := a
    refine h.get_bind fun s s' hs => C.bind_map h.fresh fun type => C.bind_eq (h.emit _ _ _) fun _ => C.pure ?_
    have hcaptures : captured.names.filterMap (fun name => (s'.scope.typeOf? name).map fun type => (name, type)) =
        (captured.names.filterMap fun name => (s.scope.typeOf? name).map fun type => (name, type)).map
          fun c => (c.1, f c.2) := by
      rw [List.map_filterMap]
      refine List.filterMap_congr fun name hname => ?_
      rw [h.typeOf? hs (hasked name hname), Option.map_map, Option.map_map]
      rfl
    dsimp only
    rw [Expr.map, hcaptures, ← Row.ofList_map]
    rfl
  | .define m name isMutable value, hseen => by
    rw [expr, expr]
    refine C.bind_map (expr_compares h hcontext value hseen) fun value => ?_
    rw [Expr.note_map]
    exact C.bind_eq (h.declare _ _) fun _ => C.pure (by rw [Expr.map]; rfl)
  | .declare m name isMutable, _ => by
    rw [expr, expr]
    exact C.bind_map h.fresh fun _ => C.bind_eq (h.declare _ _) fun _ => C.pure (by rw [Expr.map]; rfl)
  | .assign m target value, hseen => by
    obtain ⟨hvalue, htarget⟩ := asked_append hseen
    have hassign {x y : DraftM (Expr TypeVar)} (hx : C.Holds (fun a b => b = a.map f) x y) :
        C.Holds (fun a b => b = a.map f)
          (do
            let value ← expr context value
            let target ← x
            emit target.note m.span (.unify value.note)
            return Expr.assign ⟨m.span, ← unit m.span⟩ target value)
          (do
            let value ← expr context' value
            let target ← y
            emit target.note m.span (.unify value.note)
            return Expr.assign ⟨m.span, ← unit m.span⟩ target value) := by
      refine C.bind_map (expr_compares h hcontext value hvalue) fun value => C.bind_map hx fun target => ?_
      rw [Expr.note_map, Expr.note_map]
      exact C.bind_eq (h.emit _ _ _) fun _ => C.bind_map (h.unit _) fun _ => C.pure (by rw [Expr.map]; rfl)
    have hother : C.Holds (fun a b => b = a.map f) (expr context target) (expr context' target) :=
      expr_compares h hcontext target htarget
    cases target with
    | name n path => exact hassign (h.access hcontext htarget _ _)
    | localVar n name =>
      have htarget : ∀ n ∈ (Path.single name).localName?.toList, asked n := htarget
      exact hassign (h.access hcontext htarget _ _)
    | member n owner name => exact hassign hother
    | element n owner index => exact hassign hother
    | _ => exact hassign (h.throw _)
  | .giveBack m value, hseen => by
    rw [expr, expr]
    refine C.bind_map (expr_compares h hcontext value hseen) fun value => C.bind_map h.returnType fun returns => ?_
    rw [Expr.span_map, Expr.note_map]
    exact C.bind_eq (h.emit _ _ _) fun _ => C.bind_eq h.giveBack fun _ => C.bind_map (h.unit _) fun _ =>
      C.pure (by rw [Expr.map]; rfl)
  | .object m members, hseen => by
    rw [expr, expr]
    refine C.bind_map h.fresh fun type => ?_
    refine C.bind_map (namedExprs_compares h hcontext type members hseen) fun members => ?_
    rw [Expr.names_mapNamed]
    exact C.bind_eq (h.emit _ _ _) fun _ => C.pure (by rw [Expr.map]; rfl)
  | .array m elements, hseen => by
    rw [expr, expr]
    refine C.bind_map h.fresh fun type => C.bind_map h.fresh fun element => C.bind_eq (h.emit _ _ _) fun _ => ?_
    refine C.bind_map (exprs_compares h hcontext elements hseen) fun elements => ?_
    exact C.bind_eq (h.unifyElements _ _) fun _ => C.pure (by rw [Expr.map]; rfl)
  | .repeated m value size, hseen => by
    obtain ⟨hvalue, hsize⟩ := asked_append hseen
    rw [expr, expr]
    refine C.bind_map (expr_compares h hcontext value hvalue) fun value => ?_
    refine C.bind_map (expr_compares h hcontext size hsize) fun size => C.bind_map h.fresh fun type => ?_
    rw [Expr.note_map, Expr.note_map, Expr.span_map]
    exact C.bind_eq (h.emit _ _ _) fun _ => C.bind_eq (h.emit _ _ _) fun _ => C.pure (by rw [Expr.map]; rfl)
  | .member m owner name, hseen => by
    rw [expr, expr]
    refine C.bind_map (expr_compares h hcontext owner hseen) fun owner => C.bind_map h.fresh fun type => ?_
    rw [Expr.note_map]
    exact C.bind_eq (h.emit _ _ _) fun _ => C.pure (by rw [Expr.map]; rfl)
  | .element m owner index, hseen => by
    obtain ⟨howner, hindex⟩ := asked_append hseen
    rw [expr, expr]
    refine C.bind_map (expr_compares h hcontext owner howner) fun owner => ?_
    refine C.bind_map (expr_compares h hcontext index hindex) fun index => C.bind_map h.fresh fun type => ?_
    rw [Expr.note_map, Expr.note_map, Expr.span_map]
    exact C.bind_eq (h.emit _ _ _) fun _ => C.bind_eq (h.emit _ _ _) fun _ => C.pure (by rw [Expr.map]; rfl)
  | .binary m op left right, hseen => by
    obtain ⟨hleft, hright⟩ := asked_append hseen
    rw [expr, expr]
    refine C.bind_map (expr_compares h hcontext left hleft) fun left => ?_
    refine C.bind_map (expr_compares h hcontext right hright) fun right => ?_
    exact C.bind_map (h.binaryType _ _ _ _) fun _ => C.pure (by rw [Expr.map]; rfl)
  | .unary m op operand, hseen => by
    rw [expr, expr]
    refine C.bind_map (expr_compares h hcontext operand hseen) fun operand => ?_
    rw [Expr.note_map]
    cases op <;> exact C.bind_eq (h.emit _ _ _) fun _ => C.pure (by rw [Expr.map]; rfl)
  | .variant m name payload, hseen => by
    rw [expr, expr]
    refine C.bind_map (expr_compares h hcontext payload hseen) fun payload => C.bind_map h.fresh fun type => ?_
    rw [Expr.note_map]
    exact C.bind_eq (h.emit _ _ _) fun _ => C.pure (by rw [Expr.map]; rfl)
  | .unwrap m value name, hseen => by
    rw [expr, expr]
    refine C.bind_map (expr_compares h hcontext value hseen) fun value => C.bind_map h.fresh fun type => ?_
    rw [Expr.note_map]
    refine C.bind_eq (h.emit _ _ _) fun _ => C.bind_map h.returnType fun returns => ?_
    exact C.bind_eq (h.emit _ _ _) fun _ => C.pure (by rw [Expr.map]; rfl)
  | .constant m value, hseen => by
    rw [expr, expr]
    exact C.bind_map (h.isolated (expr_compares h hcontext value hseen)) fun _ =>
      C.pure (by rw [Expr.map, Expr.note_map]; rfl)
  | .ifElse m condition yes no, hseen => by
    obtain ⟨hcondition, hseen⟩ := asked_append hseen
    obtain ⟨hyes, hno⟩ := asked_append hseen
    rw [expr, expr]
    refine C.bind_map (expr_compares h hcontext condition hcondition) fun condition => ?_
    rw [Expr.note_map, Expr.span_map]
    refine C.bind_eq (h.emit _ _ _) fun _ => ?_
    refine C.bind (h.inBlock h.empty (exprs_compares h hcontext yes hyes)) fun {yes yes'} hyes => ?_
    refine C.bind (h.inBlock h.empty (exprs_compares h hcontext no hno)) fun {no no'} hno => ?_
    refine C.bind_eq (h.joinArms (.cons hyes.2 (.cons hno.2 .nil))) fun _ => C.bind_map (h.unit _) fun _ => C.pure ?_
    rw [Expr.map, hyes.1, hno.1]
    rfl
  | .matchValue m value arms otherwise, hseen => by
    obtain ⟨hvalue, hseen⟩ := asked_append hseen
    obtain ⟨harms, hotherwise⟩ := asked_append hseen
    rw [expr, expr]
    refine C.bind_map (expr_compares h hcontext value hvalue) fun value => ?_
    rw [Expr.note_map]
    refine C.bind_map (armValues_compares h hcontext value.note arms harms) fun values => ?_
    refine C.bind (armBodies_compares h hcontext arms harms) fun {bodies bodies'} hbodies => ?_
    refine C.bind (h.inBlock h.empty (exprs_compares h hcontext otherwise hotherwise)) fun {last last'} hlast => ?_
    refine C.bind_eq (h.joinArms (List.rel_append (map_snd_of_ended hbodies) (.cons hlast.2 .nil))) fun _ =>
      C.bind_map (h.unit _) fun _ => C.pure ?_
    rw [Expr.map, Expr.mapArms_zip, map_fst_of_ended hbodies, hlast.1]
    rfl
  | .matchVariant m value arms (some otherwise), hseen => by
    obtain ⟨hvalue, hseen⟩ := asked_append hseen
    obtain ⟨harms, hotherwise⟩ := asked_append hseen
    rw [expr, expr]
    refine C.bind_map (expr_compares h hcontext value hvalue) fun value => ?_
    rw [Expr.note_map]
    refine C.bind (variantArms_compares h hcontext value.note m.span arms harms) fun {arms arms'} hdrafted => ?_
    refine C.bind (h.inBlock h.empty (exprs_compares h hcontext otherwise hotherwise)) fun {last last'} hlast => ?_
    refine C.bind_eq (h.joinArms (List.rel_append (map_snd_of_ended hdrafted) (.cons hlast.2 .nil))) fun _ =>
      C.bind_map (h.unit _) fun _ => C.pure ?_
    rw [Expr.map, Expr.mapVariantArms_eq, map_fst_of_ended hdrafted, hlast.1]
    rfl
  | .matchVariant m value arms none, hseen => by
    obtain ⟨hvalue, harms⟩ := asked_append hseen
    rw [expr, expr]
    refine C.bind_map (expr_compares h hcontext value hvalue) fun value => ?_
    rw [Expr.note_map]
    refine C.bind (variantArms_compares h hcontext value.note m.span arms harms) fun {arms arms'} hdrafted => ?_
    have hnames : arms'.map (·.1.variant) = arms.map (·.1.variant) := by
      have hmap := congrArg (List.map VariantArm.variant) (map_fst_of_ended hdrafted)
      rwa [List.map_map, List.map_map, List.map_map] at hmap
    rw [hnames]
    refine C.bind_eq (h.emit _ _ _) fun _ => C.bind_eq (h.joinArms (map_snd_of_ended hdrafted)) fun _ =>
      C.bind_map (h.unit _) fun _ => C.pure ?_
    rw [Expr.map, Expr.mapVariantArms_eq, map_fst_of_ended hdrafted]
    rfl

theorem exprs_compares (h : Compares C f S B asked) (hcontext : SameInterfaces context context') :
    (es : List (Expr γ)) → (∀ n ∈ Expr.seenAll es, asked n) →
      C.Holds (fun as bs => bs = Expr.mapAll f as) (exprs context es) (exprs context' es)
  | [], _ => by
    rw [exprs, exprs]
    exact C.pure (by rw [Expr.mapAll])
  | e :: rest, hseen => by
    obtain ⟨he, hrest⟩ := asked_append hseen
    rw [exprs, exprs]
    exact C.bind_map (expr_compares h hcontext e he) fun _ =>
      C.bind_map (exprs_compares h hcontext rest hrest) fun _ => C.pure (by rw [Expr.mapAll])

theorem namedExprs_compares (h : Compares C f S B asked) (hcontext : SameInterfaces context context')
    (object : TypeVar) : (es : List (String × Expr γ)) → (∀ n ∈ Expr.seenNamed es, asked n) →
      C.Holds (fun as bs => bs = Expr.mapNamed f as) (namedExprs context object es)
        (namedExprs context' (f object) es)
  | [], _ => by
    rw [namedExprs, namedExprs]
    exact C.pure (by rw [Expr.mapNamed])
  | (name, e) :: rest, hseen => by
    obtain ⟨he, hrest⟩ := asked_append hseen
    rw [namedExprs, namedExprs]
    refine C.bind_map (expr_compares h hcontext e he) fun e => ?_
    rw [Expr.span_map, Expr.note_map]
    exact C.bind_eq (h.emit _ _ _) fun _ =>
      C.bind_map (namedExprs_compares h hcontext object rest hrest) fun _ => C.pure (by rw [Expr.mapNamed])

theorem armValues_compares (h : Compares C f S B asked) (hcontext : SameInterfaces context context')
    (value : TypeVar) : (arms : List (Expr γ × List (Expr γ))) → (∀ n ∈ Expr.seenArms arms, asked n) →
      C.Holds (fun as bs => bs = Expr.mapAll f as) (armValues context value arms)
        (armValues context' (f value) arms)
  | [], _ => by
    rw [armValues, armValues]
    exact C.pure (by rw [Expr.mapAll])
  | (e, _) :: rest, hseen => by
    obtain ⟨hseen, hrest⟩ := asked_append hseen
    obtain ⟨he, -⟩ := asked_append hseen
    rw [armValues, armValues]
    refine C.bind_map (h.isolated (expr_compares h hcontext e he)) fun e => ?_
    rw [Expr.span_map, Expr.note_map]
    exact C.bind_eq (h.emit _ _ _) fun _ =>
      C.bind_map (armValues_compares h hcontext value rest hrest) fun _ => C.pure (by rw [Expr.mapAll])

theorem armBodies_compares (h : Compares C f S B asked) (hcontext : SameInterfaces context context') :
    (arms : List (Expr γ × List (Expr γ))) → (∀ n ∈ Expr.seenArms arms, asked n) →
      C.Holds (List.Forall₂ (Ended B (Expr.mapAll f))) (armBodies context arms) (armBodies context' arms)
  | [], _ => by
    rw [armBodies, armBodies]
    exact C.pure .nil
  | (_, body) :: rest, hseen => by
    obtain ⟨hseen, hrest⟩ := asked_append hseen
    obtain ⟨-, hbody⟩ := asked_append hseen
    rw [armBodies, armBodies]
    exact C.bind (h.inBlock h.empty (exprs_compares h hcontext body hbody)) fun harm =>
      C.bind (armBodies_compares h hcontext rest hrest) fun hrest => C.pure (.cons harm hrest)

theorem variantArms_compares (h : Compares C f S B asked) (hcontext : SameInterfaces context context')
    (value : TypeVar) (span : Span) : (arms : List (VariantArm γ (List (Expr γ)))) →
      (∀ n ∈ Expr.seenVariantArms arms, asked n) →
        C.Holds (List.Forall₂ (Ended B (VariantArm.map f (Expr.mapAll f)))) (variantArms context value span arms)
          (variantArms context' (f value) span arms)
  | [], _ => by
    rw [variantArms, variantArms]
    exact C.pure .nil
  | ⟨tag, binding, _, body⟩ :: rest, hseen => by
    obtain ⟨hbody, hrest⟩ := asked_append hseen
    rw [variantArms, variantArms]
    refine C.bind_map h.fresh fun payload => C.bind_eq (h.emit _ _ _) fun _ => ?_
    have hbody := exprs_compares h hcontext body hbody
    refine C.bind (h.inBlock ?_ hbody) fun {arm arm'} harm =>
      C.bind (variantArms_compares h hcontext value span rest hrest) fun hrest => C.pure (.cons ⟨?_, harm.2⟩ hrest)
    · cases binding with
      | none => exact h.empty
      | some name => exact h.binding name payload
    · rw [harm.1]
      rfl

end

end walk

end DraftM
end Monomorph
