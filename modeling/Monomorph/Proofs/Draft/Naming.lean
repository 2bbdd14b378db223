import Monomorph.Proofs.Draft.Drafted
import Monomorph.Proofs.Draft.Unseen

/-! # Giving an argument a name

A statement is, gives back, binds or assigns the result of a call of a procedure (`CallSite`). One argument of the call
may be bound to a local of its own in the statement before, and the local be passed instead. If only locals stand left
of the argument, and the argument itself neither refers to symbols nor changes what is known of the locals, both bodies
have the same draft, but for the name (`Draft.ofProcedure_hoisted`). -/

namespace Monomorph

open Outcome

/-! ### Statements around a value -/

/-- A statement that is the value itself, gives it back, binds a local to it or assigns it. -/
inductive StatementForm (α : Type) where
  | value
  | giveBack (mark : Mark α)
  | define (mark : Mark α) (name : String) (isMutable : Bool)
  | assign (mark : Mark α) (target : Expr α)

namespace StatementForm

variable {α : Type}

/-- The statement of this form around a value. -/
def of : StatementForm α → Expr α → Expr α
  | .value, e => e
  | .giveBack m, e => .giveBack m e
  | .define m name isMutable, e => .define m name isMutable e
  | .assign m target, e => .assign m target e

/-- The names of locals that the statement may read or give a value around its value. -/
def seen : StatementForm α → List String
  | .assign _ target => target.seen
  | _ => []

end StatementForm

/-! ### Calls in statements -/

/-- A statement in a body whose value is a call of a procedure, seen from one of the arguments. The arguments left of
it are locals. -/
structure CallSite where
  before : List (Expr Unit)
  form : StatementForm Unit
  span : Span
  calleeSpan : Span
  callee : Path
  left : List (Span × String)
  arg : Expr Unit
  right : List (Expr Unit)
  after : List (Expr Unit)

theorem StatementForm.unseen_of {t : String} {form : StatementForm Unit} {e : Expr Unit} (h : t ∉ (form.of e).seen) :
    t ∉ form.seen ∧ t ∉ e.seen := by
  cases form with
  | assign => exact (unseen_append h).symm
  | _ => exact ⟨List.not_mem_nil, h⟩

namespace CallSite

def written (l : Span × String) : Expr Unit := .name ⟨l.1, ()⟩ (.single l.2)

/-- The call with something in the argument's place. -/
def call (site : CallSite) (args : List (Expr Unit)) : Expr Unit :=
  .call ⟨site.span, ()⟩ (.name ⟨site.calleeSpan, ()⟩ site.callee) args

/-- The body with the argument where it is. -/
def inline (site : CallSite) : List (Expr Unit) :=
  site.before ++ site.form.of (site.call (site.left.map written ++ site.arg :: site.right)) :: site.after

/-- The body with the argument bound to an immutable local before. -/
def hoisted (site : CallSite) (t : String) (span : Span) : List (Expr Unit) :=
  site.before ++ .define ⟨span, ()⟩ t false site.arg ::
    site.form.of (site.call (site.left.map written ++ written (site.arg.span, t) :: site.right)) :: site.after

end CallSite

namespace Expr

theorem references_cons (e : Expr TypeVar) (es : List (Expr TypeVar)) :
    references (e :: es) = references [e] ++ references es := by
  have hes := referencesOf_nodesOf (Place.isolated.declare e.declared) es
  simp only [references, nodesOf, referencesOf_append, hes, List.append_nil]

theorem references_append (es es' : List (Expr TypeVar)) :
    references (es ++ es') = references es ++ references es' := by
  induction es with
  | nil => rfl
  | cons e es ih => rw [List.cons_append, references_cons, ih, references_cons e es, List.append_assoc]

end Expr

/-- The second of two annotated bodies is the first one with an argument of a call bound to a local before. Neither the
argument nor those left of it refer to symbols; the call itself is bound to the same target. -/
inductive Hoisted (t : String) : List (Expr TypeVar) → List (Expr TypeVar) → Prop
  | mk {before : List (Expr TypeVar)} {form : StatementForm TypeVar} {m : Mark TypeVar} {target : Target}
      {left : List (Expr TypeVar)} {arg : Expr TypeVar} {right after : List (Expr TypeVar)} {span : Span}
      (settled : Expr.references (left ++ [arg]) = []) :
      Hoisted t (before ++ form.of (.invoke m target (left ++ arg :: right)) :: after)
        (before ++ .define ⟨span, arg.note⟩ t false arg ::
          form.of (.invoke m target (left ++ .localVar arg.mark t :: right)) :: after)

theorem Hoisted.prepend {t : String} {body body' : List (Expr TypeVar)} (h : Hoisted t body body')
    (before : List (Expr TypeVar)) : Hoisted t (before ++ body) (before ++ body') := by
  cases h with
  | mk settled =>
    rw [← List.append_assoc, ← List.append_assoc]
    exact .mk settled

/-! ### Locals in the body itself -/

/-- The name is a local of the innermost body and has a value. -/
def Scope.Holds (scope : Scope) (name : String) : Prop :=
  ∃ v, scope.sight name = some v ∧ v.frame = 0 ∧ v.initialized = true

theorem Scope.Holds.access {scope : Scope} {name : String} (h : scope.Holds name) (span : Span) :
    ∃ type, scope.typeOf? name = some type ∧ scope.access name span false = .ok (some (type, scope)) := by
  obtain ⟨v, hv, hframe, hinitialized⟩ := h
  refine ⟨v.binding.type, by rw [typeOf?, hv]; rfl, ?_⟩
  have hmap : (scope.mapIdx fun i f =>
      if i < v.frame then { f with captures := f.captures.add name } else f) = scope := by
    rw [hframe]
    exact List.ext_getElem? fun i => by simp
  unfold Scope.access
  rw [hv]
  simp [hinitialized, hmap]

theorem Scope.holds_declare {scope : Scope} {f : Frame} {fs : List Frame} {b : Block} {bs : List Block}
    (hscope : scope = f :: fs) (hblocks : f.blocks = b :: bs) (name : String) (type : TypeVar) :
    (scope.modifyBlock fun b => b.declare name ⟨type, true, false⟩).Holds name ∧
      (scope.modifyBlock fun b => b.declare name ⟨type, true, false⟩).typeOf? name = some type := by
  obtain ⟨returns, captures, blocks⟩ := f
  subst hscope
  dsimp only at hblocks
  subst hblocks
  have hsight : Scope.sight (modifyBlock (fun b => b.declare name ⟨type, true, false⟩)
      (⟨returns, captures, b :: bs⟩ :: fs)) name = some ⟨0, 0, ⟨type, true, false⟩, true⟩ := by
    rw [modifyBlock, sight_block, Block.declare, Row.get?_insert, if_pos rfl]
    simp
  exact ⟨⟨_, hsight, rfl, rfl⟩, by rw [typeOf?, hsight]; rfl⟩

namespace DraftM

variable {context context' : DraftContext} {t : String} {s s' s₁ : Drafting}

/-- The local read, annotated with its type. -/
def localRead (scope : Scope) (l : Span × String) : Expr TypeVar :=
  .localVar ⟨l.1, (scope.typeOf? l.2).getD default⟩ l.2

theorem expr_written (l : Span × String) (h : s.scope.Holds l.2) :
    expr context (CallSite.written l) s = .ok (localRead s.scope l) s := by
  obtain ⟨type, htype, haccess⟩ := h.access l.1
  have hlocal : accessLocal l.2 l.1 false s = .ok (some type) s := by
    have hget : (get : DraftM Drafting) s = .ok s s := rfl
    rw [accessLocal, bind_of_ok hget, haccess]
    rfl
  rw [CallSite.written, expr, access]
  refine (bind_of_ok hlocal).trans ?_
  rw [localRead, htype]
  rfl

theorem exprs_append (es es' : List (Expr Unit)) :
    exprs context (es ++ es') = (do
      let drafted ← exprs context es
      let drafted' ← exprs context es'
      return drafted ++ drafted') := by
  induction es with
  | nil => simp [exprs]
  | cons e es ih => simp [exprs, ih]

theorem exprs_written {ls : List (Span × String)} (h : ∀ l ∈ ls, s.scope.Holds l.2) :
    exprs context (ls.map CallSite.written) s = .ok (ls.map (localRead s.scope)) s := by
  induction ls with
  | nil => rfl
  | cons l ls ih =>
    obtain ⟨hl, hls⟩ := List.forall_mem_cons.1 h
    rw [List.map_cons, exprs, bind_of_ok (expr_written l hl), bind_of_ok (ih hls)]
    rfl

theorem references_localReads (scope : Scope) (ls : List (Span × String)) :
    Expr.references (ls.map (localRead scope)) = [] := by
  induction ls with
  | nil => rfl
  | cons l ls ih =>
    rw [List.map_cons, Expr.references_cons, ih]
    rfl

/-! ### Spans -/

theorem access_span (context : DraftContext) (path : Path) (span : Span) (assigned : Bool) :
    Yields (access context path span assigned) fun e => e.span = span := by
  have hsymbol : Yields (accessSymbol context path span assigned) fun e => e.span = span := by
    unfold accessSymbol
    split
    · exact .throw
    split <;> cases assigned
    · exact .after fun _ => .after fun _ => .pure rfl
    · exact .throw
    · exact .after fun _ => .after fun _ => .after fun _ => .after fun _ => .after fun _ => .pure rfl
    · exact .throw
  unfold access
  split
  · refine .after fun found => ?_
    cases found with
    | some => exact .pure rfl
    | none => exact hsymbol
  · exact hsymbol

theorem invocation_span (path : Path) (args : List (Expr TypeVar)) (span : Span) :
    Yields (invocation path args span) fun e => e.span = span :=
  .after fun _ => .after fun _ => .pure rfl

/-- Annotating an expression leaves it where it is written. -/
theorem expr_span (context : DraftContext) (e : Expr Unit) : Yields (expr context e) fun e' => e'.span = e.span := by
  cases e with
  | literal => rw [expr]; exact .after fun _ => .pure rfl
  | name => rw [expr]; exact access_span _ _ _ _
  | localVar => rw [expr]; exact access_span _ _ _ _
  | global => rw [expr]; exact .after fun _ => access_span _ _ _ _
  | procedure => rw [expr]; exact .after fun _ => access_span _ _ _ _
  | invoke => rw [expr]; exact .after fun _ => .after fun _ => invocation_span _ _ _
  | call m callee args =>
    cases callee with
    | name n path =>
      rw [expr]
      refine .after fun direct => .after fun called? => ?_
      cases called? with
      | some path => exact .after fun _ => invocation_span _ _ _
      | none => exact .after fun _ => .after fun _ => .after fun _ => .after fun _ => .pure rfl
    | _ =>
      rw [expr]
      · refine .after fun called? => ?_
        cases called? with
        | some path => exact .after fun _ => invocation_span _ _ _
        | none => exact .after fun _ => .after fun _ => .after fun _ => .after fun _ => .pure rfl
      · exact nofun
  | method =>
    rw [expr]
    exact .after fun _ => .after fun _ => .after fun _ => .after fun _ => .after fun _ => .after fun _ => .pure rfl
  | closure =>
    rw [expr]
    exact .after fun _ => .after fun _ => .after fun _ => .after fun _ => .after fun _ => .after fun _ => .pure rfl
  | define => rw [expr]; exact .after fun _ => .after fun _ => .pure rfl
  | declare => rw [expr]; exact .after fun _ => .after fun _ => .pure rfl
  | assign =>
    rw [expr]
    refine .after fun _ => ?_
    split <;> exact .after fun _ => .after fun _ => .after fun _ => .pure rfl
  | giveBack =>
    rw [expr]
    exact .after fun _ => .after fun _ => .after fun _ => .after fun _ => .after fun _ => .pure rfl
  | object => rw [expr]; exact .after fun _ => .after fun _ => .after fun _ => .pure rfl
  | array =>
    rw [expr]
    exact .after fun _ => .after fun _ => .after fun _ => .after fun _ => .after fun _ => .pure rfl
  | repeated =>
    rw [expr]
    exact .after fun _ => .after fun _ => .after fun _ => .after fun _ => .after fun _ => .pure rfl
  | member => rw [expr]; exact .after fun _ => .after fun _ => .after fun _ => .pure rfl
  | element =>
    rw [expr]
    exact .after fun _ => .after fun _ => .after fun _ => .after fun _ => .after fun _ => .pure rfl
  | binary => rw [expr]; exact .after fun _ => .after fun _ => .after fun _ => .pure rfl
  | unary m op operand => rw [expr]; cases op <;> exact .after fun _ => .after fun _ => .pure rfl
  | variant => rw [expr]; exact .after fun _ => .after fun _ => .after fun _ => .pure rfl
  | unwrap =>
    rw [expr]
    exact .after fun _ => .after fun _ => .after fun _ => .after fun _ => .after fun _ => .pure rfl
  | constant => rw [expr]; exact .after fun _ => .pure rfl
  | ifElse =>
    rw [expr]
    exact .after fun _ => .after fun _ => .after fun _ => .after fun _ => .after fun _ => .after fun _ => .pure rfl
  | matchValue =>
    rw [expr]
    exact .after fun _ => .after fun _ => .after fun _ => .after fun _ => .after fun _ => .after fun _ => .pure rfl
  | matchVariant m value arms otherwise =>
    cases otherwise with
    | some =>
      rw [expr]
      exact .after fun _ => .after fun _ => .after fun _ => .after fun _ => .after fun _ => .pure rfl
    | none =>
      rw [expr]
      exact .after fun _ => .after fun _ => .after fun _ => .after fun _ => .after fun _ => .pure rfl

/-! ### The call -/

theorem callsProcedure_congr {path : Path} {direct : Bool} (h : callsProcedure context path s = .ok direct s)
    (hscope : s'.scope = s.scope) : callsProcedure context path s' = .ok direct s' := by
  change EStateM.Result.ok _ s = _ at h
  change EStateM.Result.ok _ s' = _
  rw [hscope]
  exact congrArg (EStateM.Result.ok · s') (EStateM.Result.ok.inj h).1

/-- Where there are only procedures, a path that is no local means one. -/
theorem callsProcedure_of_procedures {path : Path}
    (hprocedures : ∀ {id symbol}, context.symbols.get? id = some symbol → symbol.declaration.isProcedure = true)
    (hlocal : ∀ name ∈ path.localName?, s.scope.sight name = none) :
    callsProcedure context path s = .ok true s := by
  have hfree : (path.localName?.any fun name => (s.scope.typeOf? name).isSome) = false := by
    cases hname : path.localName? with
    | none => rfl
    | some name => rw [Option.any_some, Scope.typeOf?, hlocal name hname]; rfl
  change EStateM.Result.ok _ s = _
  rw [hfree]
  cases hfound : (context.symbols.resolve path context.user).bind context.symbols.get? with
  | none => rfl
  | some symbol =>
    obtain ⟨id, -, hid⟩ := Option.bind_eq_some_iff.1 hfound
    dsimp only
    rw [hprocedures hid]
    rfl

theorem expr_call {site : CallSite} (h : callsProcedure context site.callee s = .ok true s) (args : List (Expr Unit)) :
    expr context (site.call args) s = (do
      let args ← exprs context args
      invocation site.callee args site.span) s := by
  rw [CallSite.call, expr]
  exact bind_of_ok h

/-- Locals that are held are read without more, so only the arguments behind them are drafted. -/
theorem expr_call_written {site : CallSite} (hcalls : callsProcedure context site.callee s = .ok true s)
    {held : List (Span × String)} (hheld : ∀ l ∈ held, s.scope.Holds l.2) (rest : List (Expr Unit)) :
    expr context (site.call (held.map CallSite.written ++ rest)) s = (do
      let rest ← exprs context rest
      invocation site.callee (held.map (localRead s.scope) ++ rest) site.span) s := by
  rw [expr_call hcalls, exprs_append, bind_assoc, bind_of_ok (exprs_written hheld)]
  simp only [bind_assoc, pure_bind]

theorem calls_beside (hsame : SameInterfaces context context') {path : Path} (hpath : t ∉ path.localName?.toList)
    (h : callsProcedure context path s = .ok true s) (hs : Drafting.Beside t s s') :
    callsProcedure context' path s' = .ok true s' := by
  refine ((callsProcedure_beside hsame hpath).run hs).elim (fun hc hc' heq _ => ?_) fun hc _ _ => ?_
  · cases h.symm.trans hc
    rw [hc', ← heq, callsProcedure_ok hc']
  · cases h.symm.trans hc

/-- Calls of the same target that differ in the argument behind those on the left. -/
def Passing (left : List (Expr TypeVar)) (arg arg' : Expr TypeVar) (e e' : Expr TypeVar) : Prop :=
  ∃ m target right, e = .invoke m target (left ++ arg :: right) ∧ e' = .invoke m target (left ++ arg' :: right)

/-- Both invocations have arguments of the same types in the same places, one of which is a local on one side. -/
theorem invocation_hoisted (path : Path) (left : List (Expr TypeVar)) (arg : Expr TypeVar) (t : String)
    (right : List (Expr TypeVar)) (span : Span) :
    Beside t (Passing left arg (.localVar arg.mark t))
      (invocation path (left ++ arg :: right) span) (invocation path (left ++ .localVar arg.mark t :: right) span) := by
  have hnotes : (left ++ .localVar arg.mark t :: right).map Expr.note = (left ++ arg :: right).map Expr.note := by
    simp [Expr.note, Expr.mark]
  have hspans : (left ++ .localVar arg.mark t :: right).map Expr.span = (left ++ arg :: right).map Expr.span := by
    simp [Expr.span, Expr.mark]
  unfold invocation
  rw [hnotes, hspans]
  exact fresh_beside.bind_eq fun _ => (useProcedure_beside _).bind_eq fun _ => .pure ⟨_, _, _, rfl, rfl⟩

/-! ### The statement -/

/-- The same statement around related values. -/
def Formed (P : Expr TypeVar → Expr TypeVar → Prop) (e e' : Expr TypeVar) : Prop :=
  ∃ (form : StatementForm TypeVar) (value value' : Expr TypeVar), P value value' ∧ e = form.of value ∧
    e' = form.of value'

theorem of_beside (hcontext : SameInterfaces context context') {form : StatementForm Unit} (hform : t ∉ form.seen)
    {e e' : Expr Unit} {P : Expr TypeVar → Expr TypeVar → Prop} (hmark : ∀ {a b}, P a b → b.mark = a.mark)
    (h : Matched (Drafting.Beside t) (fun s s' => s'.graph = s.graph) P (expr context e s) (expr context' e' s')) :
    Matched (Drafting.Beside t) (fun s s' => s'.graph = s.graph) (Formed P) (expr context (form.of e) s)
      (expr context' (form.of e') s') := by
  cases form with
  | value =>
    refine h.elim (fun hx hy hab hst => ?_) fun hx hy hst => ?_
    · exact hx ▸ hy ▸ .ok ⟨.value, _, _, hab, rfl, rfl⟩ hst
    · exact hx ▸ hy ▸ .error hst
  | giveBack m =>
    rw [StatementForm.of, StatementForm.of, expr, expr]
    refine h.bind fun {a b _ _} hab hst => Parallel.run ?_ hst
    have hnote : b.note = a.note := congrArg Mark.note (hmark hab)
    have hspan : b.span = a.span := congrArg Mark.span (hmark hab)
    rw [hnote, hspan]
    refine returnType_beside.bind_eq fun _ => (emit_beside _ _ _).bind_eq fun _ => ?_
    refine (modifyScope_beside fun hs => hs.modifyBlock fun hb => ?_).bind_eq fun _ => ?_
    · exact ⟨hb.locals, hb.initializes, rfl, hb.unseen⟩
    · exact (unit_beside _).bind_eq fun _ => .pure ⟨.giveBack _, _, _, hab, rfl, rfl⟩
  | define m name isMutable =>
    rw [StatementForm.of, StatementForm.of, expr, expr]
    refine h.bind fun {a b _ _} hab hst => Parallel.run ?_ hst
    have hnote : b.note = a.note := congrArg Mark.note (hmark hab)
    rw [hnote]
    exact (modifyScope_beside fun hs => hs.modifyBlock fun hb => hb.declare _ _).bind_eq fun _ =>
      .pure ⟨.define _ _ _, _, _, hab, rfl, rfl⟩
  | assign m target =>
    have hassign {x y : DraftM (Expr TypeVar)} (hx : Beside t Eq x y) :
        Matched (Drafting.Beside t) (fun s s' => s'.graph = s.graph) (Formed P)
          ((do
            let value ← expr context e
            let target ← x
            emit target.note m.span (.unify value.note)
            return Expr.assign ⟨m.span, ← unit m.span⟩ target value : DraftM _) s)
          ((do
            let value ← expr context' e'
            let target ← y
            emit target.note m.span (.unify value.note)
            return Expr.assign ⟨m.span, ← unit m.span⟩ target value : DraftM _) s') := by
      refine h.bind fun {a b _ _} hab hst => Parallel.run ?_ hst
      have hnote : b.note = a.note := congrArg Mark.note (hmark hab)
      rw [hnote]
      exact hx.bind_eq fun _ => (emit_beside _ _ _).bind_eq fun _ => (unit_beside _).bind_eq fun _ =>
        .pure ⟨.assign _ _, _, _, hab, rfl, rfl⟩
    have hother : Beside t Eq (expr context target) (expr context' target) := expr_beside hcontext target hform
    cases target with
    | name n path => exact hassign (access_beside hcontext hform _ _)
    | localVar n name => exact hassign (access_beside hcontext hform _ _)
    | member n owner name => exact hassign hother
    | element n owner index => exact hassign hother
    | _ => exact hassign (.throw _)

theorem of_error {form : StatementForm Unit} {e : Expr Unit} {err : TypeError} (h : expr context e s = .error err s₁) :
    expr context (form.of e) s = .error err s₁ := by
  cases form with
  | value => exact h
  | _ =>
    rw [StatementForm.of, expr]
    exact bind_of_error h

end DraftM

/-! ### Bodies -/

namespace CallSite

variable {site : CallSite} {context context' : DraftContext} {params : List String} {t : String} {s s' : Drafting}

/-- Drafting the body of a procedure with these parameters gets to the state in front of the statement. -/
def Reaches (site : CallSite) (context : DraftContext) (params : List String) (s : Drafting) : Prop :=
  ∃ (s₀ : Drafting) (args : List TypeVar) (returns : TypeVar) (before : List (Expr TypeVar)),
    args.length = params.length ∧ s₀.scope = [.ofParams (params.zip args) returns] ∧
      DraftM.exprs context site.before s₀ = .ok before s

/-- The argument may be given the name: it is not in use, a procedure is called, the arguments on the left are locals
of the procedure that have a value, and the argument itself neither refers to symbols nor changes what is known of the
locals. -/
structure Independent (site : CallSite) (context : DraftContext) (params : List String) (t : String) : Prop where
  fresh : t ∉ Expr.seenAll site.inline
  calls : ∀ {s}, site.Reaches context params s → DraftM.callsProcedure context site.callee s = .ok true s
  left : ∀ {s}, site.Reaches context params s → ∀ l ∈ site.left, s.scope.Holds l.2
  arg : ∀ {s arg s'}, site.Reaches context params s → DraftM.expr context site.arg s = .ok arg s' →
    s'.scope = s.scope ∧ Expr.references [arg] = []

/-- The statement is one of the procedure's own block. -/
theorem Reaches.block (h : site.Reaches context params s) :
    ∃ f b, s.scope = [f] ∧ f.blocks = [b] := by
  obtain ⟨s₀, args, returns, before, -, hs₀, hrun⟩ := h
  have hlayout := (DraftM.exprs_adds context site.before hrun).layout
  have hdeclared (added : List (String × TypeVar)) (row : Row TypeVar) :
      ∃ row', Layout.declareAll added [⟨returns, [row]⟩] = [⟨returns, [row']⟩] := by
    induction added with
    | nil => exact ⟨row, rfl⟩
    | cons e added ih =>
      obtain ⟨row', hrow'⟩ := ih
      refine ⟨row'.insert e.1 e.2, ?_⟩
      rw [Layout.declareAll, List.foldr_cons]
      change Layout.declare e.1 e.2 (Layout.declareAll added _) = _
      rw [hrow']
      rfl
  rw [hs₀] at hlayout
  obtain ⟨row, hrow⟩ := hdeclared _ (Scope.blockLayout _)
  obtain ⟨f, fs, hscope, hf, hfs⟩ := List.map_eq_cons_iff.1 (hlayout.trans hrow)
  obtain ⟨b, bs, hblocks, -, hbs⟩ := List.map_eq_cons_iff.1 (FrameLayout.mk.inj hf).2
  obtain rfl := List.map_eq_nil_iff.1 hfs
  obtain rfl := List.map_eq_nil_iff.1 hbs
  exact ⟨f, b, hscope, hblocks⟩

/-- Where the name may be in use: in none of the parts of the body. -/
theorem Independent.parts (h : site.Independent context params t) :
    t ∉ Expr.seenAll site.before ∧ t ∉ site.form.seen ∧ t ∉ site.callee.localName?.toList ∧
      (∀ l ∈ site.left, l.2 ≠ t) ∧ t ∉ site.arg.seen ∧ t ∉ Expr.seenAll site.right ∧ t ∉ Expr.seenAll site.after := by
  have hfresh := h.fresh
  rw [inline, Expr.seenAll_append] at hfresh
  obtain ⟨hbefore, hrest⟩ := unseen_append hfresh
  obtain ⟨hstatement, hafter⟩ := unseen_append hrest
  obtain ⟨hform, hcall⟩ := StatementForm.unseen_of hstatement
  obtain ⟨hcallee, hargs⟩ := unseen_append hcall
  rw [Expr.seenAll_append] at hargs
  obtain ⟨hleft, hargs⟩ := unseen_append hargs
  obtain ⟨harg, hright⟩ := unseen_append hargs
  refine ⟨hbefore, hform, hcallee, fun l hl heq => hleft ?_, harg, hright, hafter⟩
  exact Expr.seen_subset (List.mem_map_of_mem hl) (heq ▸ List.mem_singleton_self _)

theorem Reaches.defined (h : site.Reaches context params s) {arg : Expr TypeVar} {s₁ s₁' : Drafting}
    (hscope : s₁.scope = s.scope) (hdraft : DraftM.expr context' site.arg s' = .ok arg s₁')
    (hs : Drafting.Beside t s₁ s₁') (span : Span) :
    ∃ s₂, DraftM.expr context' (.define ⟨span, ()⟩ t false site.arg) s' =
        .ok (.define ⟨span, arg.note⟩ t false arg) s₂ ∧
      Drafting.Beside t s₁ s₂ ∧ s₂.scope.Holds t ∧ s₂.scope.typeOf? t = some arg.note := by
  obtain ⟨f, b, hf, hb⟩ := h.block
  have hblocks := hs.scope
  rw [hscope, hf] at hblocks
  obtain ⟨f', fs', hf', -, hscope'⟩ := List.forall₂_cons_left_iff.1 hblocks
  have hinner := hf'.blocks
  rw [hb] at hinner
  obtain ⟨b', bs', -, -, hblocks'⟩ := List.forall₂_cons_left_iff.1 hinner
  obtain ⟨hholds, htype⟩ := Scope.holds_declare hscope' hblocks' t arg.note
  refine ⟨{ s₁' with scope := s₁'.scope.modifyBlock fun b => b.declare t ⟨arg.note, true, false⟩ }, ?_,
    ⟨hs.graph, hs.scope.aside ⟨arg.note, true, false⟩, hs.constraints, hs.usages⟩, hholds, htype⟩
  rw [DraftM.expr, bind_of_ok hdraft]
  rfl

/-- With the argument drafted on one side and bound to the name on the other one, both calls have arguments of the same
types. -/
theorem Independent.call (hsame : DraftM.SameInterfaces context context') (h : site.Independent context params t)
    (hreach : site.Reaches context params s) {arg : Expr TypeVar} {s₁ s₂ : Drafting}
    (harg : DraftM.expr context site.arg s = .ok arg s₁) (hscope : s₁.scope = s.scope)
    (hs₂ : Drafting.Beside t s₁ s₂) (hheld : s₂.scope.Holds t) (htype : s₂.scope.typeOf? t = some arg.note) :
    Matched (Drafting.Beside t) (fun s s' => s'.graph = s.graph)
      (DraftM.Passing (site.left.map (DraftM.localRead s.scope)) arg (.localVar arg.mark t))
      (DraftM.expr context (site.call (site.left.map written ++ site.arg :: site.right)) s)
      (DraftM.expr context' (site.call (site.left.map written ++ written (site.arg.span, t) :: site.right)) s₂) := by
  obtain ⟨-, -, hcallee, hnames, -, hright, -⟩ := h.parts
  have hleft := h.left hreach
  have hcalls := h.calls hreach
  have hsight : ∀ l ∈ site.left, s₂.scope.sight l.2 = s.scope.sight l.2 := fun l hl => by
    rw [hs₂.scope.sight (hnames l hl), hscope]
  have hread : site.left.map (DraftM.localRead s₂.scope) = site.left.map (DraftM.localRead s.scope) :=
    List.map_congr_left fun l hl => by rw [DraftM.localRead, DraftM.localRead, Scope.typeOf?, hsight l hl]; rfl
  have hname : DraftM.localRead s₂.scope (site.arg.span, t) = .localVar arg.mark t := by
    have hspan : arg.mark.span = site.arg.span := (DraftM.expr_span context site.arg).ok harg
    rw [DraftM.localRead, htype, ← hspan]
    rfl
  have hinline : DraftM.expr context
      (site.call (site.left.map written ++ site.arg :: site.right)) s = (do
        let right ← DraftM.exprs context site.right
        DraftM.invocation site.callee (site.left.map (DraftM.localRead s.scope) ++ arg :: right) site.span) s₁ := by
    rw [DraftM.expr_call_written hcalls hleft, DraftM.exprs, bind_assoc, bind_of_ok harg]
    simp only [bind_assoc, pure_bind]
  have hhoisted : DraftM.expr context'
      (site.call (site.left.map written ++ written (site.arg.span, t) :: site.right)) s₂ = (do
        let right ← DraftM.exprs context' site.right
        DraftM.invocation site.callee
          (site.left.map (DraftM.localRead s.scope) ++ Expr.localVar arg.mark t :: right) site.span) s₂ := by
    have hcalls₂ := DraftM.calls_beside hsame hcallee (DraftM.callsProcedure_congr hcalls hscope) hs₂
    have hall : ∀ l ∈ site.left ++ [(site.arg.span, t)], s₂.scope.Holds l.2 := by
      rw [List.forall_mem_append, List.forall_mem_singleton]
      refine ⟨fun l hl => ?_, hheld⟩
      rw [Scope.Holds, hsight l hl]
      exact hleft l hl
    have hcall := DraftM.expr_call_written hcalls₂ hall site.right
    simpa only [List.map_append, List.map_cons, List.map_nil, List.append_assoc, List.singleton_append, hread,
      hname] using hcall
  rw [hinline, hhoisted]
  exact ((DraftM.exprs_beside hsame site.right hright).bind_eq fun _ =>
    DraftM.invocation_hoisted _ _ _ _ _ _).run hs₂

theorem Independent.statement (hsame : DraftM.SameInterfaces context context')
    (h : site.Independent context params t) (hreach : site.Reaches context params s) (hs : Drafting.Beside t s s')
    (span : Span) :
    Matched (Drafting.Beside t) (fun s s' => s'.graph = s.graph) (Hoisted t)
      (DraftM.exprs context
        (site.form.of (site.call (site.left.map written ++ site.arg :: site.right)) :: site.after) s)
      (DraftM.exprs context' (.define ⟨span, ()⟩ t false site.arg :: site.form.of
        (site.call (site.left.map written ++ written (site.arg.span, t) :: site.right)) :: site.after) s') := by
  obtain ⟨-, hform, -, -, harg, -, hafter⟩ := h.parts
  refine ((DraftM.expr_beside hsame site.arg harg).run hs).elim (fun {a a' s₁ s₁'} hx hy haa' hs₁ => ?_)
    fun {e u u'} hx hy hu => ?_
  · subst a'
    obtain ⟨hscope, hsettled⟩ := h.arg hreach hx
    obtain ⟨s₂, hdefine, hs₂, hheld, htype⟩ := hreach.defined hscope hy hs₁ span
    rw [DraftM.exprs, DraftM.exprs, bind_of_ok hdefine, DraftM.exprs]
    simp only [bind_assoc, pure_bind]
    have hcall := h.call hsame hreach hx hscope hs₂ hheld htype
    refine (DraftM.of_beside hsame hform (fun hab => ?_) hcall).bind fun {e e' _ _} he hst => Parallel.run ?_ hst
    · obtain ⟨m, target, right, rfl, rfl⟩ := hab
      rfl
    refine (DraftM.exprs_beside hsame site.after hafter).bind_eq fun after => .pure ?_
    obtain ⟨form, _, _, ⟨m, target, right, rfl, rfl⟩, rfl, rfl⟩ := he
    refine @Hoisted.mk t [] _ _ _ _ _ _ _ _ ?_
    rw [Expr.references_append, hsettled, List.append_nil]
    exact DraftM.references_localReads _ _
  -- the argument fails before anything else is drafted, on both sides
  · have hinline : DraftM.expr context
        (site.form.of (site.call (site.left.map written ++ site.arg :: site.right))) s = .error e u := by
      refine DraftM.of_error ?_
      rw [DraftM.expr_call_written (h.calls hreach) (h.left hreach), DraftM.exprs]
      exact bind_of_error (bind_of_error hx)
    have hdefine : DraftM.expr context' (.define ⟨span, ()⟩ t false site.arg) s' = .error e u' := by
      rw [DraftM.expr]
      exact bind_of_error hy
    rw [DraftM.exprs, DraftM.exprs, bind_of_error hinline, bind_of_error hdefine]
    exact .error hu

end CallSite

/-- Both bodies of a procedure have the same draft, but for the name. -/
theorem Draft.ofProcedure_hoisted {site : CallSite} {context context' : DraftContext} {params : List String}
    {t : String} (hsame : DraftM.SameInterfaces context context') (h : site.Independent context params t)
    (span nameSpan : Span) (g : TypeGraph) :
    Alike (Hoisted t) (ofProcedure context params site.inline span g)
      (ofProcedure context' params (site.hoisted t nameSpan) span g) := by
  refine ofProcedure_alike (t := t) (fun s args returns hlength hs => ?_) g
  have hscope : s.scope.Beside t s.scope := hs ▸ .cons (Frame.ofParams_beside _ _) .nil
  rw [CallSite.inline, CallSite.hoisted, DraftM.exprs_append, DraftM.exprs_append]
  refine ((DraftM.exprs_beside hsame site.before h.parts.1).run ⟨rfl, hscope, rfl, rfl⟩).elim
    (fun {before before' u u'} hx hy heq hu => ?_) fun hx hy hu => ?_
  · subst heq
    rw [bind_of_ok hx, bind_of_ok hy]
    exact (h.statement hsame ⟨s, args, returns, before, hlength, hs, hx⟩ hu nameSpan).bind fun hbody hst =>
      .ok (hbody.prepend before) hst
  · rw [bind_of_error hx, bind_of_error hy]
    exact .error hu

end Monomorph
