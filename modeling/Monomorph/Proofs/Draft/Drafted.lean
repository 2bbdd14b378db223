import Monomorph.Proofs.Draft.Steps

/-! # Every expression is drafted with its demands

`DraftM.expr_adds`: drafting an expression declares the locals that the annotated expression declares, runs over
its acts and records what each of its nodes demands, whatever the expression and the state are. So the whole body of
a draft is recorded among the draft's constraints and usages (`Draft.ofProcedure_recorded`,
`Draft.ofVariable_recorded`). -/

namespace Monomorph

open Outcome Drafting

namespace DraftM

variable {α β : Type} {s s' : Drafting} {u : Unit}

theorem unifyElements_ok {element : TypeVar} {es : List (Expr TypeVar)}
    (h : unifyElements element es s = .ok u s') :
    Quiet s s' ∧ ∀ e ∈ es, s'.records.Demands element (.unify e.note) := by
  induction es generalizing s with
  | nil =>
    obtain ⟨-, rfl⟩ := pure_eq_ok_iff.1 h
    exact ⟨Quiet.refl _, nofun⟩
  | cons e es ih =>
    obtain ⟨⟨⟩, s₁, hemit, h⟩ := bind_eq_ok_iff.1 h
    obtain ⟨hquiet, hdemands⟩ := emit_ok hemit
    obtain ⟨hrest, hall⟩ := ih h
    exact ⟨hquiet.adds hrest, List.forall_mem_cons.2 ⟨hdemands.mono hrest.records, hall⟩⟩

theorem binaryType_ok {op : BinaryOp} {left right : Expr TypeVar} {span : Span} {v : TypeVar}
    (h : binaryType op left right span s = .ok v s') :
    Quiet s s' ∧ ∀ p r, r.Extends s'.records → (Expr.binary ⟨span, v⟩ op left right).Recorded r p := by
  obtain ⟨y, hy, h⟩ := eq_ok_iff_exists.1 h
  unfold binaryType at hy
  simp only [Expr.Recorded]
  split at hy
  · rename_i harithmetic
    subst hy
    obtain ⟨⟨⟩, s₁, hnumeric, h⟩ := bind_eq_ok_iff.1 h
    obtain ⟨⟨⟩, s₂, hunify, h⟩ := bind_eq_ok_iff.1 h
    obtain ⟨rfl, rfl⟩ := pure_eq_ok_iff.1 h
    obtain ⟨hquiet, hdemands⟩ := emit_ok hnumeric
    obtain ⟨hquiet', hdemands'⟩ := emit_ok hunify
    refine ⟨hquiet.adds hquiet', fun p r hr => ⟨hdemands'.mono hr, ?_⟩⟩
    rw [if_pos harithmetic]
    exact ⟨hdemands.mono (hr.trans hquiet'.records), rfl⟩
  · rename_i harithmetic
    split at hy
    · rename_i hcomparison
      subst hy
      obtain ⟨⟨⟩, s₁, hnumeric, h⟩ := bind_eq_ok_iff.1 h
      obtain ⟨⟨⟩, s₂, hunify, h⟩ := bind_eq_ok_iff.1 h
      obtain ⟨hquiet, hdemands⟩ := emit_ok hnumeric
      obtain ⟨hquiet', hdemands'⟩ := emit_ok hunify
      obtain ⟨hquiet'', hbase⟩ := typed_ok h
      refine ⟨hquiet.adds (hquiet'.adds hquiet''), fun p r hr => ?_⟩
      have hr' := hr.trans hquiet''.records
      refine ⟨hdemands'.mono hr', ?_⟩
      rw [if_neg harithmetic, if_pos hcomparison]
      exact ⟨hdemands.mono (hr'.trans hquiet'.records), hbase.mono hr⟩
    · rename_i hcomparison
      split at hy <;> subst hy
      · rename_i hequality
        obtain ⟨⟨⟩, s₁, hunify, h⟩ := bind_eq_ok_iff.1 h
        obtain ⟨hquiet, hdemands⟩ := emit_ok hunify
        obtain ⟨hquiet', hbase⟩ := typed_ok h
        refine ⟨hquiet.adds hquiet', fun p r hr => ⟨hdemands.mono (hr.trans hquiet'.records), ?_⟩⟩
        rw [if_neg harithmetic, if_neg hcomparison, if_pos hequality]
        exact hbase.mono hr
      · rename_i hequality
        obtain ⟨⟨⟩, s₁, hboolean, h⟩ := bind_eq_ok_iff.1 h
        obtain ⟨⟨⟩, s₂, hunify, h⟩ := bind_eq_ok_iff.1 h
        obtain ⟨rfl, rfl⟩ := pure_eq_ok_iff.1 h
        obtain ⟨hquiet, hdemands⟩ := emit_ok hboolean
        obtain ⟨hquiet', hdemands'⟩ := emit_ok hunify
        refine ⟨hquiet.adds hquiet', fun p r hr => ⟨hdemands'.mono hr, ?_⟩⟩
        rw [if_neg harithmetic, if_neg hcomparison, if_neg hequality]
        exact ⟨⟨none, hdemands.mono (hr.trans hquiet'.records)⟩, rfl⟩

theorem callsProcedure_ok {context : DraftContext} {path : Path} {direct : Bool}
    (h : callsProcedure context path s = .ok direct s') : s = s' := by
  obtain ⟨y, rfl, h⟩ := get_bind_eq_ok_iff.1 h
  exact (pure_eq_ok_iff.1 h).2

theorem targetPath_ok {target : Target} {span : Span} {path : Path}
    (h : targetPath target span s = .ok path s') : Quiet s s' := by
  cases target with
  | pending i => exact (throw_eq_ok_iff.1 h).elim
  | resolved path variant =>
    obtain ⟨-, rfl⟩ := pure_eq_ok_iff.1 h
    exact Quiet.refl _

/-- A call of a procedure with arguments that are drafted first. -/
theorem invoke_adds {x : DraftM (List (Expr TypeVar))} {path : Path} {span : Span} {e : Expr TypeVar}
    (hx : ∀ {s args s'}, x s = .ok args s' →
      Adds s s' (Expr.declareds args) (Expr.actsOf args) fun p => Expr.nodesOf p args)
    (h : (x >>= fun args => invocation path args span) s = .ok e s') :
    Adds s s' e.declared e.acts fun p => e.nodes p := by
  obtain ⟨args, s₁, hargs, h⟩ := bind_eq_ok_iff.1 h
  obtain ⟨hquiet, returns, target, usage, rfl, huses, harguments, hreturns⟩ := invocation_ok h
  exact ((hx hargs).quiet hquiet).node fun _ _ _ hr => ⟨usage, huses.mono hr, harguments, hreturns⟩

/-- What a closure captures are the nearest locals of their names. -/
theorem captures_ok {scope : Scope} {names : List String} {c : String × TypeVar}
    (h : c ∈ (Row.ofList (names.filterMap fun name =>
      (scope.typeOf? name).map fun type => (name, type))).entries) : scope.layout.lookup c.1 = some c.2 := by
  obtain ⟨name, -, hname⟩ := List.mem_filterMap.1 (Row.mem_of_get?_ofList ((Row.mem_entries_iff _).1 h))
  obtain ⟨type, htype, heq⟩ := Option.map_eq_some_iff.1 hname
  obtain ⟨rfl, rfl⟩ := Prod.mk.inj heq
  exact Scope.typeOf?_eq_lookup scope _ ▸ htype

/-! ### Arms -/

theorem armValueNodes_zip_subset (values : List (Expr TypeVar)) (bodies : List (List (Expr TypeVar))) :
    Expr.armValueNodes (values.zip bodies) ⊆ values.flatMap (Expr.nodes .isolated) := by
  induction values generalizing bodies with
  | nil => exact fun _ h => h
  | cons e values ih =>
    cases bodies with
    | nil => exact List.nil_subset _
    | cons body bodies =>
      rw [List.zip_cons_cons, Expr.armValueNodes, List.flatMap_cons]
      exact List.append_subset.2 ⟨List.subset_append_left _ _,
        List.Subset.trans (ih bodies) (List.subset_append_right _ _)⟩

theorem armBodyNodes_zip_subset (p : Place) (values : List (Expr TypeVar))
    (bodies : List (List (Expr TypeVar))) :
    Expr.armBodyNodes p (values.zip bodies) ⊆ bodies.flatMap (Expr.nodesOf p) := by
  induction values generalizing bodies with
  | nil => exact List.nil_subset _
  | cons e values ih =>
    cases bodies with
    | nil => exact List.nil_subset _
    | cons body bodies =>
      rw [List.zip_cons_cons, Expr.armBodyNodes, List.flatMap_cons]
      exact List.append_subset.2 ⟨List.subset_append_left _ _,
        List.Subset.trans (ih bodies) (List.subset_append_right _ _)⟩

theorem armValueActs_zip (values : List (Expr TypeVar)) (bodies : List (List (Expr TypeVar)))
    (h : values.length = bodies.length) :
    Expr.armValueActs (values.zip bodies) = values.map fun e => .apart e.acts := by
  induction values generalizing bodies with
  | nil => rfl
  | cons e values ih =>
    cases bodies with
    | nil => cases h
    | cons body bodies =>
      exact congrArg (Act.apart e.acts :: ·) (ih bodies (Nat.succ.inj h))

theorem armBodyActs_zip (values : List (Expr TypeVar)) (bodies : List (List (Expr TypeVar)))
    (h : values.length = bodies.length) :
    Expr.armBodyActs (values.zip bodies) = bodies.map Expr.actsOf := by
  induction values generalizing bodies with
  | nil =>
    cases bodies with
    | nil => rfl
    | cons body bodies => cases h
  | cons e values ih =>
    cases bodies with
    | nil => cases h
    | cons body bodies =>
      exact congrArg (Expr.actsOf body :: ·) (ih bodies (Nat.succ.inj h))

/-! ### The induction -/

mutual

theorem expr_adds (context : DraftContext) : (e : Expr α) → ∀ {s e' s'},
    expr context e s = .ok e' s' → Adds s s' e'.declared e'.acts fun p => e'.nodes p
  | .literal m value, s, e', s', h => by
    rw [expr] at h
    obtain ⟨v, s₁, htyped, h⟩ := bind_eq_ok_iff.1 h
    obtain ⟨rfl, rfl⟩ := pure_eq_ok_iff.1 h
    obtain ⟨hquiet, hbase⟩ := typed_ok htyped
    exact hquiet.node fun _ _ _ hr => hbase.mono hr
  | .name m path, s, e', s', h => access_adds (by rwa [expr] at h)
  | .localVar m name, s, e', s', h => access_adds (by rwa [expr] at h)
  | .global m target, s, e', s', h => by
    rw [expr] at h
    obtain ⟨path, s₁, hpath, h⟩ := bind_eq_ok_iff.1 h
    exact (targetPath_ok hpath).adds (access_adds h)
  | .procedure m target, s, e', s', h => by
    rw [expr] at h
    obtain ⟨path, s₁, hpath, h⟩ := bind_eq_ok_iff.1 h
    exact (targetPath_ok hpath).adds (access_adds h)
  | .invoke m target args, s, e', s', h => by
    rw [expr] at h
    obtain ⟨path, s₁, hpath, h⟩ := bind_eq_ok_iff.1 h
    exact (targetPath_ok hpath).adds (invoke_adds (exprs_adds context args) h)
  | .call m callee args, s, e', s', h => by
    have hdirect {path : Path} {s s' : Drafting} {e' : Expr TypeVar}
        (h : (exprs context args >>= fun args => invocation path args m.span) s = .ok e' s') :
        Adds s s' e'.declared e'.acts fun p => e'.nodes p := invoke_adds (exprs_adds context args) h
    have hvalue {s s' : Drafting} {e' : Expr TypeVar}
        (h : (do
          let callee ← expr context callee
          let args ← exprs context args
          let returns ← fresh
          emit callee.note m.span (.hasSignature (args.map Expr.note) returns)
          return Expr.call ⟨m.span, returns⟩ callee args) s = .ok e' s') :
        Adds s s' e'.declared e'.acts fun p => e'.nodes p := by
      obtain ⟨callee', s₁, hcallee, h⟩ := bind_eq_ok_iff.1 h
      obtain ⟨args', s₂, hargs, h⟩ := bind_eq_ok_iff.1 h
      obtain ⟨returns, s₃, hfresh, h⟩ := bind_eq_ok_iff.1 h
      obtain ⟨⟨⟩, s₄, hemit, h⟩ := bind_eq_ok_iff.1 h
      obtain ⟨rfl, rfl⟩ := pure_eq_ok_iff.1 h
      obtain ⟨hquiet, hdemands⟩ := emit_ok hemit
      have hparts := (expr_adds context callee hcallee).trans (exprs_adds context args hargs)
      exact (hparts.quiet ((fresh_ok hfresh).adds hquiet)).node fun _ _ _ hr => hdemands.mono hr
    cases callee with
    | name n path =>
      rw [expr] at h
      obtain ⟨direct, s₁, hcalls, h⟩ := bind_eq_ok_iff.1 h
      obtain rfl := callsProcedure_ok hcalls
      cases direct with
      | true => exact hdirect h
      | false => exact hvalue h
    | _ => exact hvalue h
  | .method m receiver name args, s, e', s', h => by
    rw [expr] at h
    obtain ⟨receiver', s₁, hreceiver, h⟩ := bind_eq_ok_iff.1 h
    obtain ⟨args', s₂, hargs, h⟩ := bind_eq_ok_iff.1 h
    obtain ⟨called, s₃, hcalled, h⟩ := bind_eq_ok_iff.1 h
    obtain ⟨⟨⟩, s₄, hmember, h⟩ := bind_eq_ok_iff.1 h
    obtain ⟨returns, s₅, hreturns, h⟩ := bind_eq_ok_iff.1 h
    obtain ⟨⟨⟩, s₆, hsignature, h⟩ := bind_eq_ok_iff.1 h
    obtain ⟨rfl, rfl⟩ := pure_eq_ok_iff.1 h
    obtain ⟨hquiet, hdemands⟩ := emit_ok hmember
    obtain ⟨hquiet', hdemands'⟩ := emit_ok hsignature
    have hparts := (expr_adds context receiver hreceiver).trans (exprs_adds context args hargs)
    have hrest := (fresh_ok hreturns).adds hquiet'
    refine (hparts.quiet (((fresh_ok hcalled).adds hquiet).quiet hrest)).node fun _ _ _ hr => ?_
    exact ⟨called, hdemands.mono (hr.trans hrest.records), hdemands'.mono hr⟩
  | .closure m params body _, s, e', s', h => by
    rw [expr] at h
    obtain ⟨args, s₁, hargs, h⟩ := bind_eq_ok_iff.1 h
    obtain ⟨returns, s₂, hreturns, h⟩ := bind_eq_ok_iff.1 h
    obtain ⟨⟨body', captured⟩, s₃, hbody, h⟩ := bind_eq_ok_iff.1 h
    obtain ⟨s₄, s₅, hget, h⟩ := bind_eq_ok_iff.1 h
    obtain ⟨rfl, rfl⟩ := get_eq_ok_iff.1 hget
    obtain ⟨type, s₅, htype, h⟩ := bind_eq_ok_iff.1 h
    obtain ⟨⟨⟩, s₆, hemit, h⟩ := bind_eq_ok_iff.1 h
    obtain ⟨rfl, rfl⟩ := pure_eq_ok_iff.1 h
    obtain ⟨hquiet, hdemands⟩ := emit_ok hemit
    obtain ⟨hfresh, hlength⟩ := freshFor_ok hargs
    have hbefore : Quiet s s₂ := hfresh.quiet (fresh_ok hreturns)
    have hafter := (fresh_ok htype).adds hquiet
    obtain ⟨hframe, hnodes⟩ := inFrame_ok (exprs_adds context body) hbody
    have hinside : Adds s₂ s₃ [] _ fun p => Expr.nodesOf ⟨some returns, (params.zip args).reverse ++ p.locals⟩ body' :=
      ⟨hframe.records, hframe.layout, hframe.runs, fun p hp => hnodes p.locals hp.locals⟩
    refine (hbefore.adds (hinside.quiet hafter)).node fun p hp r hr =>
      ⟨_, rfl, hlength, hdemands.mono hr, fun c hc => ?_⟩
    have hscope : s₃.scope.layout = s.scope.layout := hframe.layout.trans hbefore.layout
    rw [← hp.locals, ← hscope]
    exact captures_ok hc
  | .define m name isMutable value, s, e', s', h => by
    rw [expr] at h
    obtain ⟨value', s₁, hvalue, h⟩ := bind_eq_ok_iff.1 h
    obtain ⟨⟨⟩, s₂, hdeclare, h⟩ := bind_eq_ok_iff.1 h
    obtain ⟨rfl, rfl⟩ := pure_eq_ok_iff.1 h
    have hparts := (expr_adds context value hvalue).trans (declare_adds hdeclare)
    simp only [List.append_nil] at hparts
    exact hparts.node fun _ _ _ _ => rfl
  | .declare m name isMutable, s, e', s', h => by
    rw [expr] at h
    obtain ⟨type, s₁, hfresh, h⟩ := bind_eq_ok_iff.1 h
    obtain ⟨⟨⟩, s₂, hdeclare, h⟩ := bind_eq_ok_iff.1 h
    obtain ⟨rfl, rfl⟩ := pure_eq_ok_iff.1 h
    exact ((fresh_ok hfresh).adds (declare_adds hdeclare)).node fun _ _ _ _ => trivial
  | .assign m target value, s, e', s', h => by
    have hassign {x : DraftM (Expr TypeVar)} {s s' : Drafting} {e' : Expr TypeVar}
        (hx : ∀ {s t s'}, x s = .ok t s' → Adds s s' t.declared (t.targetActs t.acts) fun p => t.nodes p)
        (h : (do
          let value ← expr context value
          let target ← x
          emit target.note m.span (.unify value.note)
          return Expr.assign ⟨m.span, ← unit m.span⟩ target value) s = .ok e' s') :
        Adds s s' e'.declared e'.acts fun p => e'.nodes p := by
      obtain ⟨value', s₁, hvalue, h⟩ := bind_eq_ok_iff.1 h
      obtain ⟨target', s₂, htarget, h⟩ := bind_eq_ok_iff.1 h
      obtain ⟨⟨⟩, s₃, hemit, h⟩ := bind_eq_ok_iff.1 h
      obtain ⟨v, s₄, hunit, h⟩ := bind_eq_ok_iff.1 h
      obtain ⟨rfl, rfl⟩ := pure_eq_ok_iff.1 h
      obtain ⟨hquiet, hdemands⟩ := emit_ok hemit
      have hparts := (expr_adds context value hvalue).trans (hx htarget)
      exact (hparts.quiet (hquiet.quiet (unit_ok hunit))).node fun _ _ _ hr =>
        hdemands.mono (hr.trans (unit_ok hunit).records)
    have htarget {s s' : Drafting} {t : Expr TypeVar} (h : expr context target s = .ok t s') :
        Adds s s' t.declared t.acts fun p => t.nodes p := expr_adds context target h
    cases target with
    | name n path => exact hassign access_adds h
    | localVar n name => exact hassign access_adds h
    | member n owner name =>
      refine hassign (fun h => ?_) h
      have hadds := htarget h
      rw [expr] at h
      obtain ⟨owner', s₁, -, h⟩ := bind_eq_ok_iff.1 h
      obtain ⟨type, s₂, -, h⟩ := bind_eq_ok_iff.1 h
      obtain ⟨⟨⟩, s₃, -, h⟩ := bind_eq_ok_iff.1 h
      obtain ⟨rfl, -⟩ := pure_eq_ok_iff.1 h
      exact hadds
    | element n owner index =>
      refine hassign (fun h => ?_) h
      have hadds := htarget h
      rw [expr] at h
      obtain ⟨owner', s₁, -, h⟩ := bind_eq_ok_iff.1 h
      obtain ⟨index', s₂, -, h⟩ := bind_eq_ok_iff.1 h
      obtain ⟨type, s₃, -, h⟩ := bind_eq_ok_iff.1 h
      obtain ⟨⟨⟩, s₄, -, h⟩ := bind_eq_ok_iff.1 h
      obtain ⟨⟨⟩, s₅, -, h⟩ := bind_eq_ok_iff.1 h
      obtain ⟨rfl, -⟩ := pure_eq_ok_iff.1 h
      exact hadds
    | _ => exact hassign (fun h => (throw_eq_ok_iff.1 h).elim) h
  | .giveBack m value, s, e', s', h => by
    rw [expr] at h
    obtain ⟨value', s₁, hvalue, h⟩ := bind_eq_ok_iff.1 h
    obtain ⟨returns, s₂, hreturns, h⟩ := bind_eq_ok_iff.1 h
    obtain ⟨⟨⟩, s₃, hemit, h⟩ := bind_eq_ok_iff.1 h
    obtain ⟨⟨⟩, s₄, hmodify, h⟩ := bind_eq_ok_iff.1 h
    obtain ⟨v, s₅, hunit, h⟩ := bind_eq_ok_iff.1 h
    obtain ⟨rfl, rfl⟩ := pure_eq_ok_iff.1 h
    obtain ⟨rfl, houter⟩ := returnType_ok hreturns
    obtain ⟨hquiet, hdemands⟩ := emit_ok hemit
    have hvalue := expr_adds context value hvalue
    have hafter := (alwaysReturns_adds hmodify).quiet (unit_ok hunit)
    refine ((hvalue.quiet hquiet).act hafter).node fun p hp r hr v hv => ?_
    obtain rfl := houter.symm.trans ((hvalue.layout ▸ hp.declareAll _).returns v hv)
    exact hdemands.mono (hr.trans hafter.records)
  | .object m members, s, e', s', h => by
    rw [expr] at h
    obtain ⟨type, s₁, hfresh, h⟩ := bind_eq_ok_iff.1 h
    obtain ⟨members', s₂, hmembers, h⟩ := bind_eq_ok_iff.1 h
    obtain ⟨⟨⟩, s₃, hemit, h⟩ := bind_eq_ok_iff.1 h
    obtain ⟨rfl, rfl⟩ := pure_eq_ok_iff.1 h
    obtain ⟨hquiet, hdemands⟩ := emit_ok hemit
    obtain ⟨hadds, hall⟩ := namedExprs_adds context type members hmembers
    refine (((fresh_ok hfresh).adds hadds).quiet hquiet).node fun _ _ _ hr => ⟨fun e he => ?_, ?_⟩
    · exact (hall e he).mono (hr.trans hquiet.records)
    · exact hdemands.mono hr
  | .array m elements, s, e', s', h => by
    rw [expr] at h
    obtain ⟨type, s₁, htype, h⟩ := bind_eq_ok_iff.1 h
    obtain ⟨element, s₂, helement, h⟩ := bind_eq_ok_iff.1 h
    obtain ⟨⟨⟩, s₃, hemit, h⟩ := bind_eq_ok_iff.1 h
    obtain ⟨elements', s₄, helements, h⟩ := bind_eq_ok_iff.1 h
    obtain ⟨⟨⟩, s₅, hunify, h⟩ := bind_eq_ok_iff.1 h
    obtain ⟨rfl, rfl⟩ := pure_eq_ok_iff.1 h
    obtain ⟨hquiet, hdemands⟩ := emit_ok hemit
    obtain ⟨hquiet', hall⟩ := unifyElements_ok hunify
    have hbefore : Quiet s s₃ := ((fresh_ok htype).adds (fresh_ok helement)).quiet hquiet
    have hadds := (exprs_adds context elements helements).quiet hquiet'
    refine (hbefore.adds hadds).node fun _ _ _ hr => ⟨element, ?_, fun e he => (hall e he).mono hr⟩
    exact hdemands.mono (hr.trans hadds.records)
  | .repeated m value size, s, e', s', h => by
    rw [expr] at h
    obtain ⟨value', s₁, hvalue, h⟩ := bind_eq_ok_iff.1 h
    obtain ⟨size', s₂, hsize, h⟩ := bind_eq_ok_iff.1 h
    obtain ⟨type, s₃, htype, h⟩ := bind_eq_ok_iff.1 h
    obtain ⟨⟨⟩, s₄, hemit, h⟩ := bind_eq_ok_iff.1 h
    obtain ⟨⟨⟩, s₅, hemit', h⟩ := bind_eq_ok_iff.1 h
    obtain ⟨rfl, rfl⟩ := pure_eq_ok_iff.1 h
    obtain ⟨hquiet, hdemands⟩ := emit_ok hemit
    obtain ⟨hquiet', hdemands'⟩ := emit_ok hemit'
    have hparts := (expr_adds context value hvalue).trans (expr_adds context size hsize)
    refine (hparts.quiet ((fresh_ok htype).adds (hquiet.quiet hquiet'))).node fun _ _ _ hr => ⟨?_, ?_⟩
    · exact hdemands.mono (hr.trans hquiet'.records)
    · exact ⟨_, hdemands'.mono hr⟩
  | .member m owner name, s, e', s', h => by
    rw [expr] at h
    obtain ⟨owner', s₁, howner, h⟩ := bind_eq_ok_iff.1 h
    obtain ⟨type, s₂, htype, h⟩ := bind_eq_ok_iff.1 h
    obtain ⟨⟨⟩, s₃, hemit, h⟩ := bind_eq_ok_iff.1 h
    obtain ⟨rfl, rfl⟩ := pure_eq_ok_iff.1 h
    obtain ⟨hquiet, hdemands⟩ := emit_ok hemit
    exact ((expr_adds context owner howner).quiet ((fresh_ok htype).adds hquiet)).node
      fun _ _ _ hr => hdemands.mono hr
  | .element m owner index, s, e', s', h => by
    rw [expr] at h
    obtain ⟨owner', s₁, howner, h⟩ := bind_eq_ok_iff.1 h
    obtain ⟨index', s₂, hindex, h⟩ := bind_eq_ok_iff.1 h
    obtain ⟨type, s₃, htype, h⟩ := bind_eq_ok_iff.1 h
    obtain ⟨⟨⟩, s₄, hemit, h⟩ := bind_eq_ok_iff.1 h
    obtain ⟨⟨⟩, s₅, hemit', h⟩ := bind_eq_ok_iff.1 h
    obtain ⟨rfl, rfl⟩ := pure_eq_ok_iff.1 h
    obtain ⟨hquiet, hdemands⟩ := emit_ok hemit
    obtain ⟨hquiet', hdemands'⟩ := emit_ok hemit'
    have hparts := (expr_adds context owner howner).trans (expr_adds context index hindex)
    refine (hparts.quiet ((fresh_ok htype).adds (hquiet.quiet hquiet'))).node fun _ _ _ hr => ⟨?_, ?_⟩
    · exact hdemands.mono (hr.trans hquiet'.records)
    · exact ⟨_, hdemands'.mono hr⟩
  | .binary m op left right, s, e', s', h => by
    rw [expr] at h
    obtain ⟨left', s₁, hleft, h⟩ := bind_eq_ok_iff.1 h
    obtain ⟨right', s₂, hright, h⟩ := bind_eq_ok_iff.1 h
    obtain ⟨type, s₃, htype, h⟩ := bind_eq_ok_iff.1 h
    obtain ⟨rfl, rfl⟩ := pure_eq_ok_iff.1 h
    obtain ⟨hquiet, hrecorded⟩ := binaryType_ok htype
    have hoperand := expr_adds context right hright
    have hright : Adds s₁ s₂ right'.declared (if op.isLogical then [.perhaps right'.acts] else right'.acts)
        fun p => right'.nodes p := by
      split
      · exact hoperand.perhaps
      · exact hoperand
    have hparts := (expr_adds context left hleft).trans hright
    exact (hparts.quiet hquiet).node fun p _ r hr => hrecorded p r hr
  | .unary m op operand, s, e', s', h => by
    rw [expr] at h
    obtain ⟨operand', s₁, hoperand, h⟩ := bind_eq_ok_iff.1 h
    have hoperand := expr_adds context operand hoperand
    cases op with
    | negate =>
      obtain ⟨⟨⟩, s₂, hemit, h⟩ := bind_eq_ok_iff.1 h
      obtain ⟨rfl, rfl⟩ := pure_eq_ok_iff.1 h
      obtain ⟨hquiet, hdemands⟩ := emit_ok hemit
      exact (hoperand.quiet hquiet).node fun _ _ _ hr => ⟨rfl, hdemands.mono hr⟩
    | not =>
      obtain ⟨⟨⟩, s₂, hemit, h⟩ := bind_eq_ok_iff.1 h
      obtain ⟨rfl, rfl⟩ := pure_eq_ok_iff.1 h
      obtain ⟨hquiet, hdemands⟩ := emit_ok hemit
      exact (hoperand.quiet hquiet).node fun _ _ _ hr => ⟨rfl, none, hdemands.mono hr⟩
  | .variant m name payload, s, e', s', h => by
    rw [expr] at h
    obtain ⟨payload', s₁, hpayload, h⟩ := bind_eq_ok_iff.1 h
    obtain ⟨type, s₂, htype, h⟩ := bind_eq_ok_iff.1 h
    obtain ⟨⟨⟩, s₃, hemit, h⟩ := bind_eq_ok_iff.1 h
    obtain ⟨rfl, rfl⟩ := pure_eq_ok_iff.1 h
    obtain ⟨hquiet, hdemands⟩ := emit_ok hemit
    exact ((expr_adds context payload hpayload).quiet ((fresh_ok htype).adds hquiet)).node
      fun _ _ _ hr => hdemands.mono hr
  | .unwrap m value name, s, e', s', h => by
    rw [expr] at h
    obtain ⟨value', s₁, hvalue, h⟩ := bind_eq_ok_iff.1 h
    obtain ⟨type, s₂, htype, h⟩ := bind_eq_ok_iff.1 h
    obtain ⟨⟨⟩, s₃, hemit, h⟩ := bind_eq_ok_iff.1 h
    obtain ⟨returns, s₄, hreturns, h⟩ := bind_eq_ok_iff.1 h
    obtain ⟨⟨⟩, s₅, hemit', h⟩ := bind_eq_ok_iff.1 h
    obtain ⟨rfl, rfl⟩ := pure_eq_ok_iff.1 h
    obtain ⟨rfl, houter⟩ := returnType_ok hreturns
    obtain ⟨hquiet, hdemands⟩ := emit_ok hemit
    obtain ⟨hquiet', hdemands'⟩ := emit_ok hemit'
    have hbefore := (expr_adds context value hvalue).quiet ((fresh_ok htype).adds hquiet)
    have hlast : Adds s₅ s₅ [] [.unwrap] fun _ => [] := .one .unwrap (.refl _) fun _ _ => rfl
    refine ((hbefore.quiet hquiet').act hlast).node fun p hp r hr => ⟨?_, fun v hv => ?_⟩
    · exact hdemands.mono (hr.trans hquiet'.records)
    · obtain rfl := houter.symm.trans ((hbefore.layout ▸ hp.declareAll _).returns v hv)
      exact hdemands'.mono hr
  | .constant m value, s, e', s', h => by
    rw [expr] at h
    obtain ⟨value', s₁, hvalue, h⟩ := bind_eq_ok_iff.1 h
    obtain ⟨rfl, rfl⟩ := pure_eq_ok_iff.1 h
    exact (isolated_adds (expr_adds context value) hvalue).node fun _ _ _ _ => rfl
  | .ifElse m condition yes no, s, e', s', h => by
    rw [expr] at h
    obtain ⟨condition', s₁, hcondition, h⟩ := bind_eq_ok_iff.1 h
    obtain ⟨⟨⟩, s₂, hemit, h⟩ := bind_eq_ok_iff.1 h
    obtain ⟨⟨yes', yesBlock⟩, s₃, hyes, h⟩ := bind_eq_ok_iff.1 h
    obtain ⟨⟨no', noBlock⟩, s₄, hno, h⟩ := bind_eq_ok_iff.1 h
    obtain ⟨⟨⟩, s₅, hjoin, h⟩ := bind_eq_ok_iff.1 h
    obtain ⟨v, s₆, hunit, h⟩ := bind_eq_ok_iff.1 h
    obtain ⟨rfl, rfl⟩ := pure_eq_ok_iff.1 h
    obtain ⟨hquiet, hdemands⟩ := emit_ok hemit
    have harms := (inBlock_empty_adds (exprs_adds context yes) hyes).trans
      (inBlock_empty_adds (exprs_adds context no) hno)
    have hbranch := (joinArms_adds harms hjoin).quiet (unit_ok hunit)
    have hparts := ((expr_adds context condition hcondition).quiet hquiet).trans hbranch
    exact hparts.node fun _ _ _ hr => ⟨_, hdemands.mono (hr.trans hbranch.records)⟩
  | .matchValue m value arms otherwise, s, e', s', h => by
    rw [expr] at h
    obtain ⟨value', s₁, hvalue, h⟩ := bind_eq_ok_iff.1 h
    obtain ⟨values, s₂, hvalues, h⟩ := bind_eq_ok_iff.1 h
    obtain ⟨bodies, s₃, hbodies, h⟩ := bind_eq_ok_iff.1 h
    obtain ⟨⟨otherwise', lastBlock⟩, s₄, hotherwise, h⟩ := bind_eq_ok_iff.1 h
    obtain ⟨⟨⟩, s₅, hjoin, h⟩ := bind_eq_ok_iff.1 h
    obtain ⟨v, s₆, hunit, h⟩ := bind_eq_ok_iff.1 h
    obtain ⟨rfl, rfl⟩ := pure_eq_ok_iff.1 h
    obtain ⟨hvalues, hall, hlength⟩ := armValues_adds context value'.note arms hvalues
    obtain ⟨hbodies, hlength'⟩ := armBodies_adds context arms hbodies
    have hsame : values.length = (bodies.map (·.1)).length := by
      rw [List.length_map, hlength, hlength']
    have hlast := inBlock_empty_adds (exprs_adds context otherwise) hotherwise
    have hbranch := (joinArms_adds (hbodies.trans hlast) hjoin).quiet (unit_ok hunit)
    have hparts := (expr_adds context value hvalue).trans (hvalues.trans hbranch)
    rw [Expr.acts, armValueActs_zip _ _ hsame, armBodyActs_zip _ _ hsame, List.map_map]
    refine (hparts.of_subset fun p n hn => ?_).node fun _ _ _ hr arm harm => ?_
    · simp only [List.mem_append] at hn ⊢
      exact hn.imp_right (Or.imp (fun h => armValueNodes_zip_subset _ _ h)
        (Or.imp_left fun h => armBodyNodes_zip_subset _ _ _ h))
    · exact (hall _ (List.of_mem_zip harm).1).mono (hr.trans hbranch.records)
  | .matchVariant m value arms (some otherwise), s, e', s', h => by
    rw [expr] at h
    obtain ⟨value', s₁, hvalue, h⟩ := bind_eq_ok_iff.1 h
    obtain ⟨arms', s₂, harms, h⟩ := bind_eq_ok_iff.1 h
    obtain ⟨⟨otherwise', lastBlock⟩, s₃, hotherwise, h⟩ := bind_eq_ok_iff.1 h
    obtain ⟨⟨⟩, s₄, hjoin, h⟩ := bind_eq_ok_iff.1 h
    obtain ⟨v, s₅, hunit, h⟩ := bind_eq_ok_iff.1 h
    obtain ⟨rfl, rfl⟩ := pure_eq_ok_iff.1 h
    obtain ⟨harms, hall⟩ := variantArms_adds context value'.note m.span arms harms
    have hlast := inBlock_empty_adds (exprs_adds context otherwise) hotherwise
    have hbranch := (joinArms_adds (harms.trans hlast) hjoin).quiet (unit_ok hunit)
    have hafter := ((unit_ok hunit).records.trans (modifyScope_records hjoin)).trans hlast.records
    have hparts := (expr_adds context value hvalue).trans hbranch
    exact hparts.node fun _ _ _ hr => ⟨fun arm harm => (hall arm harm).mono (hr.trans hafter), nofun⟩
  | .matchVariant m value arms none, s, e', s', h => by
    rw [expr] at h
    obtain ⟨value', s₁, hvalue, h⟩ := bind_eq_ok_iff.1 h
    obtain ⟨arms', s₂, harms, h⟩ := bind_eq_ok_iff.1 h
    obtain ⟨⟨⟩, s₃, hemit, h⟩ := bind_eq_ok_iff.1 h
    obtain ⟨⟨⟩, s₄, hjoin, h⟩ := bind_eq_ok_iff.1 h
    obtain ⟨v, s₅, hunit, h⟩ := bind_eq_ok_iff.1 h
    obtain ⟨rfl, rfl⟩ := pure_eq_ok_iff.1 h
    obtain ⟨harms, hall⟩ := variantArms_adds context value'.note m.span arms harms
    obtain ⟨hquiet, hdemands⟩ := emit_ok hemit
    have hbranch := (joinArms_adds (harms.quiet hquiet) hjoin).quiet (unit_ok hunit)
    have hafter := (unit_ok hunit).records.trans (modifyScope_records hjoin)
    have hparts := (expr_adds context value hvalue).trans hbranch
    refine hparts.node fun _ _ _ hr => ⟨fun arm harm => ?_, fun _ => ?_⟩
    · exact (hall arm harm).mono (hr.trans (hafter.trans hquiet.records))
    · rw [List.map_map]
      exact hdemands.mono (hr.trans hafter)

theorem exprs_adds (context : DraftContext) : (es : List (Expr α)) → ∀ {s es' s'},
    exprs context es s = .ok es' s' → Adds s s' (Expr.declareds es') (Expr.actsOf es') fun p => Expr.nodesOf p es'
  | [], s, es', s', h => by
    rw [exprs] at h
    obtain ⟨rfl, rfl⟩ := pure_eq_ok_iff.1 h
    exact Quiet.refl _
  | e :: rest, s, es', s', h => by
    rw [exprs] at h
    obtain ⟨e', s₁, he, h⟩ := bind_eq_ok_iff.1 h
    obtain ⟨rest', s₂, hrest, h⟩ := bind_eq_ok_iff.1 h
    obtain ⟨rfl, rfl⟩ := pure_eq_ok_iff.1 h
    exact (expr_adds context e he).trans (exprs_adds context rest hrest)

theorem namedExprs_adds (context : DraftContext) (type : TypeVar) :
    (es : List (String × Expr α)) → ∀ {s es' s'}, namedExprs context type es s = .ok es' s' →
      (Adds s s' (Expr.namedDeclareds es') (Expr.namedActs es') fun p => Expr.namedNodes p es') ∧
        ∀ e ∈ es', s'.records.Demands type (.hasMember e.1 e.2.note)
  | [], s, es', s', h => by
    rw [namedExprs] at h
    obtain ⟨rfl, rfl⟩ := pure_eq_ok_iff.1 h
    exact ⟨Quiet.refl _, nofun⟩
  | (name, e) :: rest, s, es', s', h => by
    rw [namedExprs] at h
    obtain ⟨e', s₁, he, h⟩ := bind_eq_ok_iff.1 h
    obtain ⟨⟨⟩, s₂, hemit, h⟩ := bind_eq_ok_iff.1 h
    obtain ⟨rest', s₃, hrest, h⟩ := bind_eq_ok_iff.1 h
    obtain ⟨rfl, rfl⟩ := pure_eq_ok_iff.1 h
    obtain ⟨hquiet, hdemands⟩ := emit_ok hemit
    obtain ⟨hadds, hall⟩ := namedExprs_adds context type rest hrest
    exact ⟨((expr_adds context e he).quiet hquiet).trans hadds,
      List.forall_mem_cons.2 ⟨hdemands.mono hadds.records, hall⟩⟩

theorem armValues_adds (context : DraftContext) (value : TypeVar) :
    (arms : List (Expr α × List (Expr α))) → ∀ {s values s'},
      armValues context value arms s = .ok values s' →
        (Adds s s' [] (values.map fun e => .apart e.acts) fun _ => values.flatMap (Expr.nodes .isolated)) ∧
          (∀ e ∈ values, s'.records.Demands value (.unify e.note)) ∧ values.length = arms.length
  | [], s, values, s', h => by
    rw [armValues] at h
    obtain ⟨rfl, rfl⟩ := pure_eq_ok_iff.1 h
    exact ⟨Quiet.refl _, nofun, rfl⟩
  | (e, _) :: rest, s, values, s', h => by
    rw [armValues] at h
    obtain ⟨e', s₁, he, h⟩ := bind_eq_ok_iff.1 h
    obtain ⟨⟨⟩, s₂, hemit, h⟩ := bind_eq_ok_iff.1 h
    obtain ⟨rest', s₃, hrest, h⟩ := bind_eq_ok_iff.1 h
    obtain ⟨rfl, rfl⟩ := pure_eq_ok_iff.1 h
    obtain ⟨hquiet, hdemands⟩ := emit_ok hemit
    obtain ⟨hadds, hall, hlength⟩ := armValues_adds context value rest hrest
    exact ⟨((isolated_adds (expr_adds context e) he).quiet hquiet).trans hadds,
      List.forall_mem_cons.2 ⟨hdemands.mono hadds.records, hall⟩, congrArg Nat.succ hlength⟩

theorem armBodies_adds (context : DraftContext) :
    (arms : List (Expr α × List (Expr α))) → ∀ {s bodies s'},
      armBodies context arms s = .ok bodies s' →
        (AddsArms s s' (bodies.map (Expr.actsOf ∘ (·.1))) (bodies.map (·.2))
          fun p => (bodies.map (·.1)).flatMap (Expr.nodesOf p)) ∧ bodies.length = arms.length
  | [], s, bodies, s', h => by
    rw [armBodies] at h
    obtain ⟨rfl, rfl⟩ := pure_eq_ok_iff.1 h
    exact ⟨.nil _, rfl⟩
  | (_, body) :: rest, s, bodies, s', h => by
    rw [armBodies] at h
    obtain ⟨⟨body', block⟩, s₁, hbody, h⟩ := bind_eq_ok_iff.1 h
    obtain ⟨rest', s₂, hrest, h⟩ := bind_eq_ok_iff.1 h
    obtain ⟨rfl, rfl⟩ := pure_eq_ok_iff.1 h
    obtain ⟨hadds, hlength⟩ := armBodies_adds context rest hrest
    exact ⟨(inBlock_empty_adds (exprs_adds context body) hbody).trans hadds, congrArg Nat.succ hlength⟩

theorem variantArms_adds (context : DraftContext) (value : TypeVar) (span : Span) :
    (arms : List (VariantArm α (List (Expr α)))) → ∀ {s arms' s'},
      variantArms context value span arms s = .ok arms' s' →
        (AddsArms s s' (Expr.variantArmActs (arms'.map (·.1))) (arms'.map (·.2))
          fun p => Expr.variantArmNodes p (arms'.map (·.1))) ∧
          ∀ arm ∈ arms'.map (·.1), s'.records.Demands value (.hasVariant arm.variant arm.payload)
  | [], s, arms', s', h => by
    rw [variantArms] at h
    obtain ⟨rfl, rfl⟩ := pure_eq_ok_iff.1 h
    exact ⟨.nil _, nofun⟩
  | ⟨variant, binding, _, body⟩ :: rest, s, arms', s', h => by
    rw [variantArms] at h
    obtain ⟨payload, s₁, hpayload, h⟩ := bind_eq_ok_iff.1 h
    obtain ⟨⟨⟩, s₂, hemit, h⟩ := bind_eq_ok_iff.1 h
    obtain ⟨⟨body', block⟩, s₃, hbody, h⟩ := bind_eq_ok_iff.1 h
    obtain ⟨rest', s₄, hrest, h⟩ := bind_eq_ok_iff.1 h
    obtain ⟨rfl, rfl⟩ := pure_eq_ok_iff.1 h
    obtain ⟨hquiet, hdemands⟩ := emit_ok hemit
    obtain ⟨hadds, hall⟩ := variantArms_adds context value span rest hrest
    have hbody : AddsArms s₂ s₃ [binding.toList.map (fun name => Act.bind (name, payload)) ++ Expr.actsOf body']
        [block] fun p => Expr.nodesOf (p.bind binding payload) body' := by
      refine inBlock_adds _ (fun p => p.bind binding payload) (exprs_adds context body) (fun r scope => ?_)
        (fun p l hp => ?_) hbody
      · cases binding with
        | none => rfl
        | some name => exact ⟨_, rfl, by cases scope <;> rfl⟩
      · cases binding with
        | none => exact hp.enter
        | some name => exact hp.enter_declared name payload
    exact ⟨(hbody.after ((fresh_ok hpayload).quiet hquiet)).trans hadds,
      List.forall_mem_cons.2 ⟨hdemands.mono (hbody.trans hadds).records, hall⟩⟩

end

end DraftM

/-! ### Drafts -/

namespace Draft

variable {context : DraftContext} {g g' : TypeGraph} {d : Draft}

def records (d : Draft) : Records :=
  ⟨d.constraints, d.usages.procedures.toList, d.usages.globals.toList⟩

theorem run_ok {x : DraftM (List TypeVar × TypeVar × List (Expr TypeVar))}
    (h : run x g = (.ok d, g')) :
    ∃ s, x ⟨g, [], #[], ⟨#[], #[]⟩⟩ = .ok (d.args, d.returns, d.body) s ∧ s.records = d.records ∧
      s.graph = g' := by
  unfold run at h
  split at h
  · rename_i hx
    cases h
    exact ⟨_, hx, rfl, rfl⟩
  · cases h

/-- Every expression in the body of a procedure is recorded in its draft. -/
theorem ofProcedure_recorded {params : List String} {body : List (Expr Unit)} {span : Span}
    (h : ofProcedure context params body span g = (.ok d, g')) :
    d.args.length = params.length ∧
      ∀ n ∈ Expr.nodesOf (.ofParams params d.args d.returns) d.body, n.2.Recorded d.records n.1 := by
  obtain ⟨s, hrun, hrecords, -⟩ := run_ok h
  obtain ⟨args, s₁, hargs, hrun⟩ := bind_eq_ok_iff.1 hrun
  obtain ⟨returns, s₂, hreturns, hrun⟩ := bind_eq_ok_iff.1 hrun
  obtain ⟨⟨body', captured⟩, s₃, hbody, hrun⟩ := bind_eq_ok_iff.1 hrun
  obtain ⟨heq, rfl⟩ := pure_eq_ok_iff.1 hrun
  obtain ⟨hfresh, hlength⟩ := DraftM.freshFor_ok hargs
  have hbefore := (hfresh.quiet (DraftM.fresh_ok hreturns)).layout
  obtain ⟨hargs', hreturns', hbody'⟩ : args = d.args ∧ returns = d.returns ∧ body' = d.body := by
    simpa only [Prod.mk.injEq] using heq
  obtain ⟨-, hnodes⟩ := DraftM.inFrame_ok (DraftM.exprs_adds context body) hbody
  rw [← hargs', ← hreturns', ← hbody', ← hrecords]
  refine ⟨hlength, fun n hn => hnodes [] (fun name => ?_) n ?_ _ (.refl _)⟩
  · rw [hbefore]
    rfl
  · rw [List.append_nil]
    exact hn

theorem ofVariable_args {value : Expr Unit} (h : ofVariable context value g = (.ok d, g')) : d.args = [] := by
  obtain ⟨s, hrun, -⟩ := run_ok h
  obtain ⟨value', s₁, -, hrun⟩ := bind_eq_ok_iff.1 hrun
  exact (congrArg Prod.fst (pure_eq_ok_iff.1 hrun).1).symm

/-- Every expression in the value of a module variable is recorded in its draft. -/
theorem ofVariable_recorded {value : Expr Unit} (h : ofVariable context value g = (.ok d, g')) :
    ∀ n ∈ Expr.nodesOf .isolated d.body, n.2.Recorded d.records n.1 := by
  obtain ⟨s, hrun, hrecords, -⟩ := run_ok h
  obtain ⟨value', s₁, hvalue, hrun⟩ := bind_eq_ok_iff.1 hrun
  obtain ⟨heq, rfl⟩ := pure_eq_ok_iff.1 hrun
  obtain ⟨hargs, hreturns, hbody⟩ : [] = d.args ∧ value'.note = d.returns ∧ [value'] = d.body := by
    simpa only [Prod.mk.injEq] using heq
  obtain ⟨-, hnodes⟩ := DraftM.isolated_ok (DraftM.expr_adds context value) hvalue
  rw [← hbody, ← hrecords, Expr.nodesOf, Expr.nodesOf, List.append_nil]
  exact fun n hn => hnodes n hn _ (.refl _)

end Draft
end Monomorph
