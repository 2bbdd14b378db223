import Monomorph.Proofs.Draft.Naming
import Monomorph.Proofs.Solve.Cycles
import Monomorph.Proofs.Solve.Likeness
import Monomorph.Proofs.Solve.Orders

/-! # Where an argument is written

The calls in a body are bound in the order in which they are drafted, a call before the calls in its arguments. So an
argument that refers to no symbols may as well be bound to a local in the statement before: the check finds the same
errors and binds every call to the same candidate (`Program.check_hoisted`). An argument that is a call itself may not:
its type is still open when the call around it is bound (`Program.argument_order_matters`). -/

namespace Monomorph

open Outcome

/-! ### Binding without references -/

theorem settled_append {l l' : List (Place × Expr TypeVar)} (h : referencesOf (l ++ l') = []) :
    referencesOf l = [] ∧ referencesOf l' = [] :=
  List.append_eq_nil_iff.1 ((referencesOf_append _ _).symm.trans h)

namespace Binder

mutual

/-- There is nothing to bind where no symbol is referred to. -/
theorem expr_settled (b : Binder SolveM) : (e : Expr TypeVar) → ∀ {p}, referencesOf (e.nodes p) = [] → expr b e = pure e
  | .literal .., _, _ => by rw [expr]
  | .name .., _, _ => by rw [expr]
  | .localVar .., _, _ => by rw [expr]
  | .declare .., _, _ => by rw [expr]
  | .global .., _, h => by cases h
  | .procedure .., _, h => by cases h
  | .invoke .., _, h => by cases h
  | .call m callee args, p, h => by
    obtain ⟨hcallee, hargs⟩ := settled_append h
    rw [expr, expr_settled b callee hcallee, exprs_settled b args hargs]
    rfl
  | .method m receiver name args, p, h => by
    obtain ⟨hreceiver, hargs⟩ := settled_append h
    rw [expr, expr_settled b receiver hreceiver, exprs_settled b args hargs]
    rfl
  | .closure m params body info, p, h => by
    rw [expr, exprs_settled b body h]
    rfl
  | .define m name isMutable value, p, h => by
    rw [expr, expr_settled b value h]
    rfl
  | .assign m target value, p, h => by
    obtain ⟨hvalue, htarget⟩ := settled_append h
    rw [expr, expr_settled b target htarget, expr_settled b value hvalue]
    rfl
  | .giveBack m value, p, h => by
    rw [expr, expr_settled b value h]
    rfl
  | .object m members, p, h => by
    rw [expr, namedExprs_settled b members h]
    rfl
  | .array m elements, p, h => by
    rw [expr, exprs_settled b elements h]
    rfl
  | .repeated m value size, p, h => by
    obtain ⟨hvalue, hsize⟩ := settled_append h
    rw [expr, expr_settled b value hvalue, expr_settled b size hsize]
    rfl
  | .member m owner name, p, h => by
    rw [expr, expr_settled b owner h]
    rfl
  | .element m owner index, p, h => by
    obtain ⟨howner, hindex⟩ := settled_append h
    rw [expr, expr_settled b owner howner, expr_settled b index hindex]
    rfl
  | .binary m op left right, p, h => by
    obtain ⟨hleft, hright⟩ := settled_append h
    rw [expr, expr_settled b left hleft, expr_settled b right hright]
    rfl
  | .unary m op operand, p, h => by
    rw [expr, expr_settled b operand h]
    rfl
  | .variant m name payload, p, h => by
    rw [expr, expr_settled b payload h]
    rfl
  | .unwrap m value name, p, h => by
    rw [expr, expr_settled b value h]
    rfl
  | .constant m value, p, h => by
    rw [expr, expr_settled b value h]
    rfl
  | .ifElse m condition yes no, p, h => by
    obtain ⟨hcondition, h⟩ := settled_append h
    obtain ⟨hyes, hno⟩ := settled_append h
    rw [expr, expr_settled b condition hcondition, exprs_settled b yes hyes, exprs_settled b no hno]
    rfl
  | .matchValue m value arms otherwise, p, h => by
    obtain ⟨hvalue, h⟩ := settled_append h
    obtain ⟨hvalues, h⟩ := settled_append h
    obtain ⟨hbodies, hotherwise⟩ := settled_append h
    rw [expr, expr_settled b value hvalue, armValues_settled b arms hvalues, armBodies_settled b arms hbodies,
      exprs_settled b otherwise hotherwise]
    simp only [pure_bind, List.zip_map', List.map_id']
  | .matchVariant m value arms (some otherwise), p, h => by
    obtain ⟨hvalue, h⟩ := settled_append h
    obtain ⟨harms, hotherwise⟩ := settled_append h
    rw [expr, expr_settled b value hvalue, variantArms_settled b arms harms, exprs_settled b otherwise hotherwise]
    rfl
  | .matchVariant m value arms none, p, h => by
    obtain ⟨hvalue, harms⟩ := settled_append h
    rw [expr, expr_settled b value hvalue, variantArms_settled b arms harms]
    rfl

theorem exprs_settled (b : Binder SolveM) : (es : List (Expr TypeVar)) → ∀ {p},
    referencesOf (Expr.nodesOf p es) = [] → exprs b es = pure es
  | [], _, _ => by rw [exprs]
  | e :: rest, p, h => by
    obtain ⟨he, hrest⟩ := settled_append h
    rw [exprs, expr_settled b e he, exprs_settled b rest hrest]
    rfl

theorem namedExprs_settled (b : Binder SolveM) : (es : List (String × Expr TypeVar)) → ∀ {p},
    referencesOf (Expr.namedNodes p es) = [] → namedExprs b es = pure es
  | [], _, _ => by rw [namedExprs]
  | (_, e) :: rest, p, h => by
    obtain ⟨he, hrest⟩ := settled_append h
    rw [namedExprs, expr_settled b e he, namedExprs_settled b rest hrest]
    rfl

theorem armValues_settled (b : Binder SolveM) : (arms : List (Expr TypeVar × List (Expr TypeVar))) →
    referencesOf (Expr.armValueNodes arms) = [] → armValues b arms = pure (arms.map Prod.fst)
  | [], _ => by rw [armValues]; rfl
  | (e, _) :: rest, h => by
    obtain ⟨he, hrest⟩ := settled_append h
    rw [armValues, expr_settled b e he, armValues_settled b rest hrest]
    rfl

theorem armBodies_settled (b : Binder SolveM) : (arms : List (Expr TypeVar × List (Expr TypeVar))) → ∀ {p},
    referencesOf (Expr.armBodyNodes p arms) = [] → armBodies b arms = pure (arms.map Prod.snd)
  | [], _, _ => by rw [armBodies]; rfl
  | (_, body) :: rest, p, h => by
    obtain ⟨hbody, hrest⟩ := settled_append h
    rw [armBodies, exprs_settled b body hbody, armBodies_settled b rest hrest]
    rfl

theorem variantArms_settled (b : Binder SolveM) : (arms : List (VariantArm TypeVar (List (Expr TypeVar)))) → ∀ {p},
    referencesOf (Expr.variantArmNodes p arms) = [] → variantArms b arms = pure arms
  | [], _, _ => by rw [variantArms]
  | ⟨_, _, _, body⟩ :: rest, p, h => by
    obtain ⟨hbody, hrest⟩ := settled_append h
    rw [variantArms, exprs_settled b body hbody, variantArms_settled b rest hrest]
    rfl

end

/-! ### Binding both bodies -/

section like

variable {R : List (Expr TypeVar) → List (Expr TypeVar) → Prop} {b b' : Binder SolveM}

open SolveM (Like)

theorem exprs_append (b : Binder SolveM) (es es' : List (Expr TypeVar)) :
    exprs b (es ++ es') = (do
      let bound ← exprs b es
      let bound' ← exprs b es'
      return bound ++ bound') := by
  induction es with
  | nil => simp [exprs]
  | cons e es ih => simp [exprs, ih]

/-- Calls of the same target with the same arguments behind settled ones. -/
theorem invoke_like (h : AnswerAlike R b b') (m : Mark TypeVar) (target : Target) {left right : List (Expr TypeVar)}
    {arg arg' : Expr TypeVar} (hleft : Expr.references (left ++ [arg]) = [])
    (hleft' : Expr.references (left ++ [arg']) = []) :
    Like R (DraftM.Passing left arg arg') (expr b (.invoke m target (left ++ arg :: right)))
      (expr b' (.invoke m target (left ++ arg' :: right))) := by
  have hargs (c : Binder SolveM) {arg : Expr TypeVar} (h : Expr.references (left ++ [arg]) = []) :
      exprs c (left ++ arg :: right) = exprs c right >>= fun right => pure (left ++ arg :: right) := by
    rw [List.append_cons, exprs_append, exprs_settled c _ h]
    simp only [pure_bind, List.append_assoc, List.cons_append, List.nil_append]
  rw [expr, expr, hargs b hleft, hargs b' hleft']
  simp only [bind_assoc, pure_bind]
  exact (bindProcedure_like h _ _).bind_eq fun _ => (exprs_like h right).bind_eq fun _ => .pure ⟨_, _, _, rfl, rfl⟩

theorem of_like (h : AnswerAlike R b b') (form : StatementForm TypeVar) {e e' : Expr TypeVar}
    {P : Expr TypeVar → Expr TypeVar → Prop} (he : Like R P (expr b e) (expr b' e')) :
    Like R (DraftM.Formed P) (expr b (form.of e)) (expr b' (form.of e')) := by
  cases form with
  | value =>
    refine ⟨fun hw => (he.run hw).elim (fun hx hy hab hst => ?_) fun hx hy hst => ?_⟩
    · exact hx ▸ hy ▸ .ok ⟨.value, _, _, hab, rfl, rfl⟩ hst
    · exact hx ▸ hy ▸ .error hst
  | giveBack m =>
    rw [StatementForm.of, StatementForm.of, expr, expr]
    exact he.bind fun hab => .pure ⟨.giveBack m, _, _, hab, rfl, rfl⟩
  | define m name isMutable =>
    rw [StatementForm.of, StatementForm.of, expr, expr]
    exact he.bind fun hab => .pure ⟨.define m name isMutable, _, _, hab, rfl, rfl⟩
  | assign m target =>
    rw [StatementForm.of, StatementForm.of, expr, expr]
    exact (expr_like h target).bind_eq fun target => he.bind fun hab =>
      .pure ⟨.assign m target, _, _, hab, rfl, rfl⟩

end like

end Binder

/-- The body is the same, or one argument in it is bound to a name. -/
def SameOrHoisted (t : String) (body body' : List (Expr TypeVar)) : Prop := body = body' ∨ Hoisted t body body'

theorem bindAlike_refl (t : String) (body : List (Expr TypeVar)) : BindAlike (SameOrHoisted t) body body :=
  fun _ _ h => ⟨fun hw => ((Binder.exprs_like h body).run hw).elim
    (fun hx hy hab hst => hx ▸ hy ▸ .ok (.inl hab) hst) fun hx hy hst => hx ▸ hy ▸ .error hst⟩

/-- The local is defined as the argument, which is settled; then both calls are bound alike. -/
theorem Hoisted.bindAlike {t : String} {body body' : List (Expr TypeVar)} (h : Hoisted t body body') :
    BindAlike (SameOrHoisted t) body body' := by
  intro b b' hb
  cases h with
  | @mk before form m target left arg right after span settled =>
    have hsettled := settled
    rw [Expr.references_append, List.append_eq_nil_iff] at hsettled
    have hdefine : Binder.expr b' (.define ⟨span, arg.note⟩ t false arg) =
        pure (.define ⟨span, arg.note⟩ t false arg) :=
      Binder.expr_settled b' _ (settled_append hsettled.2).1
    have hname : Expr.references (left ++ [.localVar arg.mark t]) = [] := by
      rw [Expr.references_append, hsettled.1]
      rfl
    rw [Binder.exprs_append, Binder.exprs_append, Binder.exprs, Binder.exprs, Binder.exprs, hdefine]
    simp only [bind_assoc, pure_bind]
    refine (Binder.exprs_like hb before).bind_eq fun before => ?_
    refine (Binder.of_like hb form (Binder.invoke_like hb m target settled hname)).bind fun {e e'} he => ?_
    obtain ⟨form, _, _, ⟨m, target, right, rfl, rfl⟩, rfl, rfl⟩ := he
    exact (Binder.exprs_like hb after).bind_eq fun after => .pure (.inr (.mk settled))

/-! ### Programs -/

/-- The symbol is the same, or it is the procedure with the argument bound to a name. -/
inductive Symbol.Hoists (t : String) (site : CallSite) (path : Path) (span : Span) (params : List String)
    (nameSpan : Span) : Symbol → Symbol → Prop
  | same {s : Symbol} : Hoists t site path span params nameSpan s s
  | hoisted : Hoists t site path span params nameSpan ⟨path, span, .procedure params site.inline⟩
      ⟨path, span, .procedure params (site.hoisted t nameSpan)⟩

section programs

variable {t : String} {site : CallSite} {path : Path} {span nameSpan : Span} {params : List String}
  {table table' : SymbolTable} {s s' : Symbol}

theorem Symbol.Hoists.interface (s s' : Symbol) (h : s.Hoists t site path span params nameSpan s') :
    s'.interface = s.interface := by
  cases h <;> rfl

theorem Symbol.Hoists.like (hsame : table.SameInterfaces table')
    (hsite : site.Independent ⟨table, path⟩ params t) (h : s.Hoists t site path span params nameSpan s') :
    s.Like (BindAlike (SameOrHoisted t)) table table' s' := by
  have hrefl (body body' : List (Expr TypeVar)) (heq : body = body') : BindAlike (SameOrHoisted t) body body' :=
    heq ▸ bindAlike_refl t body
  cases h with
  | same =>
    obtain ⟨path, span, declaration⟩ := s
    cases declaration with
    | procedure params body =>
      exact .procedure fun g => (Draft.ofProcedure_congr (hsame.contexts path) params body span g).imp hrefl
    | native => exact .native
    | moduleVariable value =>
      exact .moduleVariable fun g => (Draft.ofVariable_congr (hsame.contexts path) value g).imp hrefl
    | external => exact .external
  | hoisted =>
    exact .procedure fun g => (Draft.ofProcedure_hoisted (hsame.contexts path) hsite span nameSpan g).imp
      fun _ _ h => h.bindAlike

end programs

namespace Program

/-- **Where an argument is written makes no difference** if it refers to no symbols, the arguments left of it are
locals and nothing else uses the name it is given: with the argument bound to an immutable local in the statement
before, a check finds the same errors, and every call in the variants it keeps is bound to the same candidate. -/
theorem check_hoisted (expansion : Expansion) (before after : List Symbol) (path : Path) (span nameSpan : Span)
    (params : List String) (site : CallSite) (t : String) (options : CheckOptions) :
    let inline := ofSymbols expansion (before ++ ⟨path, span, .procedure params site.inline⟩ :: after)
    let hoisted := ofSymbols expansion
      (before ++ ⟨path, span, .procedure params (site.hoisted t nameSpan)⟩ :: after)
    site.Independent ⟨(inline.prepared options).symbols, path⟩ params t →
      (hoisted.check options).1 = (inline.check options).1 ∧
        (inline.check options).2.workspace.Like (SameOrHoisted t) (hoisted.check options).2.workspace := by
  intro inline hoisted hsite
  have hinterface (s s' : Symbol) : s.Hoists t site path span params nameSpan s' → s'.interface = s.interface :=
    Symbol.Hoists.interface s s'
  have hsymbols : List.Forall₂ (Symbol.Hoists t site path span params nameSpan)
      (before ++ ⟨path, span, .procedure params site.inline⟩ :: after)
      (before ++ ⟨path, span, .procedure params (site.hoisted t nameSpan)⟩ :: after) :=
    List.rel_append (List.forall₂_same.2 fun _ _ => .same)
      (.cons .hoisted (List.forall₂_same.2 fun _ _ => .same))
  have hrelated : (inline.prepared options).Related _ (hoisted.prepared options) :=
    (ofSymbols_related hinterface expansion hsymbols).prepared hinterface (fun _ => .same) options
  refine check_like ⟨hrelated.sameInterfaces hinterface, fun {id s s'} hs hs' => ?_⟩ ?_
  · exact (hrelated.get? hs hs').like (hrelated.sameInterfaces hinterface) hsite
  · rw [hrelated.workspace]
    exact Workspace.like_refl (fun _ => .inl rfl) _

/-- A procedure of the module `app` that adds to its second argument, one of the core module that gives it back, and
one that gives back a text. -/
def picks : List Symbol :=
  let m : Mark Unit := ⟨.none, ()⟩
  let second : Expr Unit := .name m (.single "y")
  [⟨⟨["app", "pick"]⟩, .none, .procedure ["x", "y"] [.giveBack m (.binary m .add second (.literal m (.integer 1)))]⟩,
    ⟨⟨["core", "pick"]⟩, .none, .procedure ["x", "y"] [.giveBack m second]⟩,
    ⟨⟨["app", "make"]⟩, .none, .procedure [] [.giveBack m (.literal m (.string "s"))]⟩]

/-- A body that gives back what `pick` makes of the local `a` and an argument. -/
def picking (arg : Expr Unit) : CallSite :=
  ⟨[], .giveBack ⟨.none, ()⟩, .none, .none, .single "pick", [(.none, "a")], arg, [], []⟩

/-- The program with this argument written in the call. -/
def pickingInline (arg : Expr Unit) : Program :=
  ofSymbols .modules (picks ++ [⟨⟨["app", "main"]⟩, .none, .procedure ["a"] (picking arg).inline⟩])

/-- The program with this argument bound to a local before. -/
def pickingHoisted (arg : Expr Unit) : Program :=
  ofSymbols .modules (picks ++ [⟨⟨["app", "main"]⟩, .none, .procedure ["a"] ((picking arg).hoisted "t" .none)⟩])

theorem picking_procedural (arg : Expr Unit) (entries : List Path) :
    ((pickingInline arg).prepared ⟨entries, false⟩).symbols.Procedural := by
  change (pickingInline arg).symbols.Procedural
  rw [pickingInline, ofSymbols_symbols _ (by simp [picks])]
  intro s hs
  simp only [picks, List.cons_append, List.nil_append, List.mem_toArray, List.mem_cons, List.not_mem_nil,
    or_false] at hs
  rcases hs with rfl | rfl | rfl | rfl <;> rfl

/-- A text written out refers to nothing, and the parameter `a` has a value. -/
theorem picking_independent (text : String) (entries : List Path) :
    let arg : Expr Unit := .literal ⟨.none, ()⟩ (.string text)
    (picking arg).Independent ⟨((pickingInline arg).prepared ⟨entries, false⟩).symbols, ⟨["app", "main"]⟩⟩
      ["a"] "t" := by
  intro arg
  generalize hcontext : (⟨_, _⟩ : DraftContext) = context
  have hscope {s : Drafting} (h : (picking arg).Reaches context ["a"] s) :
      ∃ type returns, s.scope = [.ofParams [("a", type)] returns] := by
    obtain ⟨s₀, args, returns, before, hlength, hs₀, hrun⟩ := h
    cases hrun
    obtain ⟨type, rfl⟩ := List.length_eq_one_iff.1 hlength
    exact ⟨type, returns, hs₀⟩
  have hseen : Expr.seenAll (picking arg).inline = ["pick", "a"] := rfl
  refine ⟨by rw [hseen]; decide, fun h => ?_, fun h => ?_, fun h hrun => ?_⟩
  · obtain ⟨type, returns, hs⟩ := hscope h
    refine DraftM.callsProcedure_of_procedures (fun hid => ?_) ?_
    · subst hcontext
      exact picking_procedural arg entries _ (Array.mem_of_getElem? hid)
    · rintro _ ⟨⟩
      rw [hs]
      rfl
  · obtain ⟨type, returns, hs⟩ := hscope h
    rw [hs]
    simp only [picking, List.forall_mem_singleton]
    exact ⟨_, rfl, rfl, rfl⟩
  · cases hrun
    exact ⟨rfl, rfl⟩

/-- With a text written out for the argument, both checks find the same. -/
theorem check_hoisted_text :
    let arg : Expr Unit := .literal ⟨.none, ()⟩ (.string "s")
    let options : CheckOptions := ⟨[⟨["app", "main"]⟩], false⟩
    (picking arg).Independent ⟨((pickingInline arg).prepared options).symbols, ⟨["app", "main"]⟩⟩ ["a"] "t" ∧
      ((pickingHoisted arg).check options).1 = ((pickingInline arg).check options).1 ∧
      ((pickingInline arg).check options).2.workspace.Like (SameOrHoisted "t")
        ((pickingHoisted arg).check options).2.workspace :=
  ⟨picking_independent _ _, check_hoisted .modules picks [] ⟨["app", "main"]⟩ .none .none ["a"] (picking _) "t" _
    (picking_independent _ _)⟩

/-- With a call that makes the text in its place, the procedure that adds is called, and that is an error. With the
local bound to that call, the core procedure is called, and nothing is wrong. -/
theorem argument_order_matters :
    let arg : Expr Unit := .call ⟨.none, ()⟩ (.name ⟨.none, ()⟩ (.single "make")) []
    let options : CheckOptions := ⟨[⟨["app", "main"]⟩], false⟩
    "t" ∉ Expr.seenAll (picking arg).inline ∧
      ((pickingInline arg).check options).1 =
        [.single .none (.incompatible "a string" "an integer" (some .none) (some .none) [.returns])] ∧
      ((pickingHoisted arg).check options).1 = [] := by
  refine ⟨?_, ?_, ?_⟩
  · decide
  · cbv
  · cbv

end Program

end Monomorph
