import Monomorph.Proofs.Draft.Drafted

/-! # Drafting does what the body does

Whatever drafting does to the scope is one run over the acts of the expression that it gives (`DraftM.expr_adds`). So
what is said of runs is said of every body that is drafted: of procedures (`Draft.ofProcedure_runs`), of module
variables (`Draft.ofVariable_runs`), and of the closures in them (`Draft.Made.closuresRun`). -/

namespace Monomorph

open Outcome Drafting

/-! ### Closures inside -/

namespace Expr

def closureAct (params : List String) (body : List (Expr TypeVar)) (info : ClosureInfo TypeVar) : Act :=
  .closure info.returns info.captures (Act.ofBody params info.args body)

/-- What every closure among some nodes does was run over. -/
def ClosuresRun (r : Records) (nodes : List (Place × Expr TypeVar)) : Prop :=
  ∀ n ∈ nodes, ∀ m params body info, n.2 = .closure m params body (some info) →
    ∃ s s', Act.Runs r (closureAct params body info) s s'

variable {r : Records} {nodes nodes' : List (Place × Expr TypeVar)}

theorem ClosuresRun.append (h : ClosuresRun r nodes) (h' : ClosuresRun r nodes') :
    ClosuresRun r (nodes ++ nodes') := fun n hn =>
  (List.mem_append.1 hn).elim (h n) (h' n)

theorem ClosuresRun.node {p : Place} {e : Expr TypeVar} (h : ClosuresRun r nodes)
    (he : ∀ m params body info, e ≠ .closure m params body (some info)) : ClosuresRun r ((p, e) :: nodes) :=
  List.forall_mem_cons.2 ⟨fun _ _ _ _ heq => (he _ _ _ _ heq).elim, h⟩

theorem ClosuresRun.nil : ClosuresRun r [] := nofun

mutual

theorem acts_run (p : Place) : (e : Expr TypeVar) → ∀ {s s'}, Act.RunsAll r e.acts s s' →
    ClosuresRun r (e.nodes p)
  | .literal .., s, s', _ => ClosuresRun.nil.node nofun
  | .name .., s, s', _ => ClosuresRun.nil.node nofun
  | .localVar .., s, s', _ => ClosuresRun.nil.node nofun
  | .global .., s, s', _ => ClosuresRun.nil.node nofun
  | .procedure .., s, s', _ => ClosuresRun.nil.node nofun
  | .declare .., s, s', _ => ClosuresRun.nil.node nofun
  | .invoke m target args, s, s', h => (actsOf_run p args h).node nofun
  | .call m callee args, s, s', h => by
    obtain ⟨s₁, hcallee, hargs⟩ := Act.runsAll_append.1 h
    exact ((acts_run p callee hcallee).append (actsOf_run _ args hargs)).node nofun
  | .method m receiver n args, s, s', h => by
    obtain ⟨s₁, hreceiver, hargs⟩ := Act.runsAll_append.1 h
    exact ((acts_run p receiver hreceiver).append (actsOf_run _ args hargs)).node nofun
  | .closure m params body none, s, s', h => by
    obtain ⟨-, returns, s₁, hbody⟩ := Act.runsAll_singleton.1 h
    exact (actsOf_run _ body hbody).node nofun
  | .closure m params body (some info), s, s', h => by
    have hclosure := Act.runsAll_singleton.1 h
    refine List.forall_mem_cons.2 ⟨fun _ _ _ _ heq => ?_, ?_⟩
    · cases heq
      exact ⟨s, s', hclosure⟩
    · obtain ⟨f, hbody, -⟩ := hclosure
      obtain ⟨s₁, -, hbody⟩ := Act.runsAll_append.1 hbody
      exact actsOf_run _ body hbody
  | .define m n isMutable value, s, s', h => by
    obtain ⟨s₁, hvalue, -⟩ := Act.runsAll_append.1 h
    exact (acts_run p value hvalue).node nofun
  | .assign m target value, s, s', h => by
    obtain ⟨s₁, hvalue, htarget⟩ := Act.runsAll_append.1 h
    refine ((acts_run p value hvalue).append ?_).node nofun
    unfold targetActs at htarget
    split at htarget
    · exact ClosuresRun.nil.node nofun
    · exact acts_run _ target htarget
  | .giveBack m value, s, s', h => by
    obtain ⟨s₁, hvalue, -⟩ := Act.runsAll_append.1 h
    exact (acts_run p value hvalue).node nofun
  | .object m members, s, s', h => (namedActs_run p members h).node nofun
  | .array m elements, s, s', h => (actsOf_run p elements h).node nofun
  | .repeated m value size, s, s', h => by
    obtain ⟨s₁, hvalue, hsize⟩ := Act.runsAll_append.1 h
    exact ((acts_run p value hvalue).append (acts_run _ size hsize)).node nofun
  | .member m owner n, s, s', h => (acts_run p owner h).node nofun
  | .element m owner index, s, s', h => by
    obtain ⟨s₁, howner, hindex⟩ := Act.runsAll_append.1 h
    exact ((acts_run p owner howner).append (acts_run _ index hindex)).node nofun
  | .binary m op left right, s, s', h => by
    obtain ⟨s₁, hleft, hright⟩ := Act.runsAll_append.1 h
    refine ((acts_run p left hleft).append ?_).node nofun
    split at hright
    · exact acts_run _ right (Act.runsAll_singleton.1 hright)
    · exact acts_run _ right hright
  | .unary m op operand, s, s', h => (acts_run p operand h).node nofun
  | .variant m n payload, s, s', h => (acts_run p payload h).node nofun
  | .unwrap m value n, s, s', h => by
    obtain ⟨s₁, hvalue, -⟩ := Act.runsAll_append.1 h
    exact (acts_run p value hvalue).node nofun
  | .constant m value, s, s', h => by
    obtain ⟨-, returns, s₁, hvalue⟩ := Act.runsAll_singleton.1 h
    exact (acts_run _ value hvalue).node nofun
  | .ifElse m condition yes no, s, s', h => by
    obtain ⟨s₁, hcondition, hbranch⟩ := Act.runsAll_append.1 h
    obtain ⟨s₂, blocks, harms, -⟩ := Act.runsAll_singleton.1 hbranch
    obtain ⟨s₃, _, hyes, -, s₄, _, hno, -⟩ := harms
    exact ((acts_run p condition hcondition).append
      ((actsOf_run _ yes hyes).append (actsOf_run _ no hno))).node nofun
  | .matchValue m value arms otherwise, s, s', h => by
    obtain ⟨s₁, hvalue, hrest⟩ := Act.runsAll_append.1 h
    obtain ⟨s₂, hvalues, hbranch⟩ := Act.runsAll_append.1 hrest
    obtain ⟨s₃, blocks, harms, -⟩ := Act.runsAll_singleton.1 hbranch
    obtain ⟨s₄, _, _, hbodies, ⟨s₅, _, hotherwise, -⟩, -⟩ := Act.runsArms_append.1 harms
    exact ((acts_run p value hvalue).append ((armValueActs_run arms hvalues).append
      ((armBodyActs_run _ arms hbodies).append (actsOf_run _ otherwise hotherwise)))).node nofun
  | .matchVariant m value arms (some otherwise), s, s', h => by
    obtain ⟨s₁, hvalue, hbranch⟩ := Act.runsAll_append.1 h
    obtain ⟨s₂, blocks, harms, -⟩ := Act.runsAll_singleton.1 hbranch
    obtain ⟨s₃, _, _, hbodies, ⟨s₄, _, hotherwise, -⟩, -⟩ := Act.runsArms_append.1 harms
    exact ((acts_run p value hvalue).append
      ((variantArmActs_run _ arms hbodies).append (actsOf_run _ otherwise hotherwise))).node nofun
  | .matchVariant m value arms none, s, s', h => by
    obtain ⟨s₁, hvalue, hbranch⟩ := Act.runsAll_append.1 h
    obtain ⟨s₂, blocks, harms, -⟩ := Act.runsAll_singleton.1 hbranch
    exact ((acts_run p value hvalue).append (variantArmActs_run _ arms harms)).node nofun

theorem actsOf_run (p : Place) : (es : List (Expr TypeVar)) → ∀ {s s'}, Act.RunsAll r (actsOf es) s s' →
    ClosuresRun r (nodesOf p es)
  | [], s, s', _ => .nil
  | e :: rest, s, s', h => by
    obtain ⟨s₁, he, hrest⟩ := Act.runsAll_append.1 h
    exact (acts_run p e he).append (actsOf_run _ rest hrest)

theorem namedActs_run (p : Place) : (es : List (String × Expr TypeVar)) → ∀ {s s'},
    Act.RunsAll r (namedActs es) s s' → ClosuresRun r (namedNodes p es)
  | [], s, s', _ => .nil
  | (_, e) :: rest, s, s', h => by
    obtain ⟨s₁, he, hrest⟩ := Act.runsAll_append.1 h
    exact (acts_run p e he).append (namedActs_run _ rest hrest)

theorem armValueActs_run : (arms : List (Expr TypeVar × List (Expr TypeVar))) → ∀ {s s'},
    Act.RunsAll r (armValueActs arms) s s' → ClosuresRun r (armValueNodes arms)
  | [], s, s', _ => .nil
  | (e, _) :: rest, s, s', h => by
    obtain ⟨s₁, ⟨-, returns, s₂, he⟩, hrest⟩ := h
    exact (acts_run _ e he).append (armValueActs_run rest hrest)

theorem armBodyActs_run (p : Place) : (arms : List (Expr TypeVar × List (Expr TypeVar))) →
    ∀ {s blocks s'}, Act.RunsArms r (armBodyActs arms) s blocks s' → ClosuresRun r (armBodyNodes p arms)
  | [], s, blocks, s', _ => .nil
  | (_, body) :: rest, s, blocks, s', h => by
    obtain ⟨s₁, _, hbody, -, hrest⟩ := h
    exact (actsOf_run p body hbody).append (armBodyActs_run p rest hrest)

theorem variantArmActs_run (p : Place) : (arms : List (VariantArm TypeVar (List (Expr TypeVar)))) →
    ∀ {s blocks s'}, Act.RunsArms r (variantArmActs arms) s blocks s' → ClosuresRun r (variantArmNodes p arms)
  | [], s, blocks, s', _ => .nil
  | ⟨_, binding, payload, body⟩ :: rest, s, blocks, s', h => by
    obtain ⟨s₁, _, hbody, -, hrest⟩ := h
    obtain ⟨s₂, -, hbody⟩ := Act.runsAll_append.1 hbody
    exact (actsOf_run _ body hbody).append (variantArmActs_run p rest hrest)

end

end Expr

/-! ### Drafts -/

namespace Draft

variable {context : DraftContext} {g g' : TypeGraph} {d : Draft}

/-- A procedure is a closure around which no locals are visible. -/
theorem ofProcedure_runs {params : List String} {body : List (Expr Unit)} {span : Span}
    (h : ofProcedure context params body span g = (.ok d, g')) :
    Act.Runs d.records (Expr.closureAct params d.body ⟨d.args, d.returns, .empty⟩) [] [] := by
  obtain ⟨s, hrun, hrecords, -⟩ := run_ok h
  obtain ⟨args, s₁, hargs, hrun⟩ := bind_eq_ok_iff.1 hrun
  obtain ⟨returns, s₂, hreturns, hrun⟩ := bind_eq_ok_iff.1 hrun
  obtain ⟨⟨body', captured⟩, s₃, hbody, hrun⟩ := bind_eq_ok_iff.1 hrun
  obtain ⟨heq, rfl⟩ := pure_eq_ok_iff.1 hrun
  obtain ⟨hargs', hreturns', hbody'⟩ : args = d.args ∧ returns = d.returns ∧ body' = d.body := by
    simpa only [Prod.mk.injEq] using heq
  have hbefore : Quiet _ s₂ := (DraftM.freshFor_ok hargs).1.quiet (DraftM.fresh_ok hreturns)
  obtain ⟨hframe, -⟩ := DraftM.inFrame_ok (DraftM.exprs_adds context body) hbody
  have hruns := Act.runsAll_singleton.1 ((hbefore.adds hframe).runs s₃.records (.refl _))
  have hlayout := Act.layout_runs _ hruns
  have hscope : s₃.scope = [] := List.map_eq_nil_iff.1 hlayout
  have hcaptured : Scope.captured [] captured = .empty := by
    have hnone : (captured.names.filterMap fun name =>
        (Scope.typeOf? [] name).map fun type => (name, type)) = [] :=
      List.filterMap_eq_nil_iff.2 fun _ _ => rfl
    rw [Scope.captured, hnone]
    rfl
  rw [hscope, hcaptured] at hruns
  rwa [← hargs', ← hreturns', ← hbody', ← hrecords]

theorem ofVariable_runs {value : Expr Unit} (h : ofVariable context value g = (.ok d, g')) :
    ∃ returns s, Act.RunsAll d.records (Expr.actsOf d.body) (Scope.begin returns []) s := by
  obtain ⟨s, hrun, hrecords, -⟩ := run_ok h
  obtain ⟨value', s₁, hvalue, hrun⟩ := bind_eq_ok_iff.1 hrun
  obtain ⟨heq, rfl⟩ := pure_eq_ok_iff.1 hrun
  obtain ⟨-, -, hbody⟩ : [] = d.args ∧ value'.note = d.returns ∧ [value'] = d.body := by
    simpa only [Prod.mk.injEq] using heq
  obtain ⟨hacts, -⟩ := DraftM.isolated_ok (DraftM.expr_adds context value) hvalue
  obtain ⟨-, returns, s₂, hinside⟩ := Act.runsAll_singleton.1 (hacts.runs s₁.records (.refl _))
  rw [← hbody, ← hrecords, Expr.actsOf, Expr.actsOf, List.append_nil]
  exact ⟨returns, s₂, hinside⟩

/-- A draft that was made of a procedure or of a module variable, with the place where its body stands. -/
inductive Made : Draft → Place → Prop where
  | procedure {context : DraftContext} {params : List String} {body : List (Expr Unit)} {span : Span}
      {g g' : TypeGraph} {d : Draft} (h : ofProcedure context params body span g = (.ok d, g')) :
      Made d (.ofParams params d.args d.returns)
  | moduleVariable {context : DraftContext} {value : Expr Unit} {g g' : TypeGraph} {d : Draft}
      (h : ofVariable context value g = (.ok d, g')) : Made d .isolated

theorem Made.closuresRun {p : Place} (h : d.Made p) :
    Expr.ClosuresRun d.records (Expr.nodesOf p d.body) := by
  cases h with
  | procedure h =>
    obtain ⟨f, hbody, -⟩ := ofProcedure_runs h
    obtain ⟨s, -, hbody⟩ := Act.runsAll_append.1 hbody
    exact Expr.actsOf_run _ _ hbody
  | moduleVariable h =>
    obtain ⟨returns, s, hbody⟩ := ofVariable_runs h
    exact Expr.actsOf_run _ _ hbody

theorem Made.recorded {p : Place} (h : d.Made p) :
    ∀ n ∈ Expr.nodesOf p d.body, n.2.Recorded d.records n.1 := by
  cases h with
  | procedure h => exact (ofProcedure_recorded h).2
  | moduleVariable h => exact ofVariable_recorded h

/-- A body of a draft, as its acts and the type that it gives back: that of a procedure, or that of a closure
anywhere in the draft. -/
inductive Body : Draft → List Act → TypeVar → Prop where
  | procedure {context : DraftContext} {params : List String} {body : List (Expr Unit)} {span : Span}
      {g g' : TypeGraph} {d : Draft} (h : ofProcedure context params body span g = (.ok d, g')) :
      Body d (Act.ofBody params d.args d.body) d.returns
  | closure {d : Draft} {p q : Place} {m : Mark TypeVar} {params : List String} {body : List (Expr TypeVar)}
      {info : ClosureInfo TypeVar} (h : d.Made p)
      (hmem : (q, .closure m params body (some info)) ∈ Expr.nodesOf p d.body) :
      Body d (Act.ofBody params info.args body) info.returns

/-- Drafting runs over every body as over that of a closure. -/
theorem Body.runs {acts : List Act} {returns : TypeVar} (h : d.Body acts returns) :
    ∃ captures s s', Act.Runs d.records (.closure returns captures acts) s s' := by
  cases h with
  | procedure h => exact ⟨_, _, _, ofProcedure_runs h⟩
  | closure h hmem =>
    obtain ⟨s, s', hruns⟩ := h.closuresRun _ hmem _ _ _ _ rfl
    exact ⟨_, s, s', hruns⟩

/-- The draft of a procedure in a program without other symbols. -/
def alone (params : List String) (body : List (Expr Unit)) : Except TypeError Draft :=
  (ofProcedure ⟨⟨#[], .modules⟩, .single "main"⟩ params body .none .empty).1

theorem alone_ok {params : List String} {body : List (Expr Unit)} (h : alone params body = .ok d) :
    ∃ g', ofProcedure ⟨⟨#[], .modules⟩, .single "main"⟩ params body .none .empty = (.ok d, g') :=
  ⟨_, Prod.ext h rfl⟩

end Draft
end Monomorph
