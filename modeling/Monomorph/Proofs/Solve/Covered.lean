import Monomorph.Proofs.Draft.Captured
import Monomorph.Proofs.Solve.Settled

/-! # Closures capture what is free in them

In drafts every closure captures exactly the names that are free in its body (`Act.covered_runs`), and binding usages
keeps it so: locals are declared and used as before, and the closures that come in for procedures used as values use
nothing from around them (`Binder.exprs_retains`). As a procedure is a closure that captures nothing, nothing is free in
the body of a kept variant (`Settles.covered`). -/

namespace Monomorph

open Outcome

namespace Act

mutual

/-- Every closure captures exactly the names that are free in its body. -/
def covered : Act → Prop
  | .closure _ captures body =>
    (∀ n, n ∈ captures.names ↔ ∃ u ∈ freeAll [] body, u.name = n) ∧ coveredAll body
  | .perhaps right => coveredAll right
  | .branch arms => coveredArms arms
  | .read .. | .assign .. | .declare .. | .giveBack | .unwrap | .apart _ => True

/-- So does every closure in acts in order. -/
def coveredAll : List Act → Prop
  | [] => True
  | a :: rest => covered a ∧ coveredAll rest

def coveredArms : List (List Act) → Prop
  | [] => True
  | arm :: rest => coveredAll arm ∧ coveredArms rest

end

theorem coveredAll_iff {acts : List Act} : coveredAll acts ↔ ∀ a ∈ acts, covered a := by
  induction acts with
  | nil => simp [coveredAll]
  | cons a acts ih => simp [coveredAll, ih]

theorem coveredAll_append {as bs : List Act} : coveredAll (as ++ bs) ↔ coveredAll as ∧ coveredAll bs := by
  simp [coveredAll_iff, or_imp, forall_and]

theorem freeAll_params (params : List (String × TypeVar)) (bound : List String) (acts : List Act) :
    freeAll bound (params.map bind ++ acts) = freeAll ((params.map (·.1)).reverse ++ bound) acts := by
  induction params generalizing bound with
  | nil => rfl
  | cons param params ih =>
    have hbind : freeAll bound ((param :: params).map bind ++ acts) =
        freeAll (param.1 :: bound) (params.map bind ++ acts) := rfl
    rw [hbind, ih]
    simp

theorem freeAll_reads {bound : List String} {locals : List (String × TypeVar)} (h : ∀ e ∈ locals, e.1 ∈ bound) :
    freeAll bound (locals.map fun e => .read e.1 e.2) = [] := by
  induction locals with
  | nil => rfl
  | cons e locals ih =>
    obtain ⟨he, hlocals⟩ := List.forall_mem_cons.1 h
    have hread : free bound (.read e.1 e.2) = [] := if_pos he
    rw [List.map_cons, freeAll, hread]
    exact ih hlocals

/-! ### In drafts -/

variable {r : Records}

mutual

/-- What drafting records for closures is what is free in them. -/
theorem covered_runs : (a : Act) → ∀ {s s'}, Runs r a s s' → covered a
  | .read .., _, _, _ | .assign .., _, _, _ | .declare .., _, _, _ | .giveBack, _, _, _ | .unwrap, _, _, _
  | .apart _, _, _, _ => trivial
  | .perhaps right, _, _, h => covered_runsAll right h
  | .branch arms, _, _, ⟨_, _, harms, _⟩ => covered_runsArms arms harms
  | .closure returns captures body, s, s', h => by
    obtain ⟨-, hcaptures⟩ := captures_closure h
    obtain ⟨f, hbody, -⟩ := h
    refine ⟨fun n => ?_, covered_runsAll body hbody⟩
    rw [Row.mem_names_iff, Row.contains_iff]
    constructor
    · rintro ⟨type, htype⟩
      obtain ⟨u, hu, hname, -⟩ := (hcaptures n type).1 htype
      exact ⟨u, hu, hname⟩
    · rintro ⟨u, hu, hname⟩
      exact ⟨u.type, (hcaptures n u.type).2 ⟨u, hu, hname, rfl⟩⟩

theorem covered_runsAll : (acts : List Act) → ∀ {s s'}, RunsAll r acts s s' → coveredAll acts
  | [], _, _, _ => trivial
  | a :: rest, _, _, ⟨_, ha, hrest⟩ => ⟨covered_runs a ha, covered_runsAll rest hrest⟩

theorem covered_runsArms : (arms : List (List Act)) → ∀ {s blocks s'}, RunsArms r arms s blocks s' →
    coveredArms arms
  | [], _, _, _, _ => trivial
  | arm :: rest, _, _, _, ⟨_, _, harm, _, hrest⟩ => ⟨covered_runsAll arm harm, covered_runsArms rest hrest⟩

end

/-! ### While usages are bound -/

/-- Acts that come in the place of others declare and use the same locals, and closures in them still capture what is
free in them. -/
structure Retains (as bs : List Act) : Prop where
  declared : declaredAll bs = declaredAll as
  free : ∀ bound, freeAll bound bs = freeAll bound as
  covered : coveredAll as → coveredAll bs

namespace Retains

variable {as as' bs bs' : List Act} {arms arms' : List (List Act)}

theorem refl (as : List Act) : Retains as as := ⟨rfl, fun _ => rfl, id⟩

theorem append (h : Retains as as') (h' : Retains bs bs') : Retains (as ++ bs) (as' ++ bs') where
  declared := by rw [declaredAll_append, declaredAll_append, h.declared, h'.declared]
  free bound := by rw [freeAll_append, freeAll_append, h.free, h'.free, h.declared]
  covered hall := by
    obtain ⟨has, hbs⟩ := coveredAll_append.1 hall
    exact coveredAll_append.2 ⟨h.covered has, h'.covered hbs⟩

theorem perhaps (h : Retains as as') : Retains [.perhaps as] [.perhaps as'] where
  declared := by simp [declaredAll, Act.declared, h.declared]
  free bound := by simp [freeAll, Act.free, h.free]
  covered hall := ⟨h.covered hall.1, trivial⟩

theorem branch (h : List.Forall₂ Retains arms arms') : Retains [.branch arms] [.branch arms'] where
  declared := rfl
  free bound := by
    have harms : freeArms bound arms' = freeArms bound arms := by
      induction h with
      | nil => rfl
      | cons harm _ ih => rw [freeArms, freeArms, harm.free, ih]
    simp [freeAll, Act.free, harms]
  covered hall := by
    refine ⟨?_, trivial⟩
    obtain ⟨harms, -⟩ := hall
    change coveredArms arms at harms
    change coveredArms arms'
    induction h with
    | nil => trivial
    | cons harm _ ih => exact ⟨harm.covered harms.1, ih harms.2⟩

theorem closure (h : Retains as as') (returns : TypeVar) (captures : Row TypeVar) :
    Retains [.closure returns captures as] [.closure returns captures as'] where
  declared := rfl
  free bound := by simp [freeAll, Act.free, h.free]
  covered hall := by
    obtain ⟨⟨hnames, hbody⟩, -⟩ := hall
    exact ⟨⟨fun n => (h.free []).symm ▸ hnames n, h.covered hbody⟩, trivial⟩

theorem apart (as as' : List Act) : Retains [.apart as] [.apart as'] := ⟨rfl, fun _ => rfl, fun _ => ⟨trivial, trivial⟩⟩

end Retains

end Act

namespace Binder

open Act (Retains)

variable {b : Binder SolveM} {w w' : Workspace}

/-- The closure that stands for a procedure uses nothing from around it. -/
theorem forwarder_retains (m : Mark TypeVar) (params : List String) (usage : ProcedureUsage) (target : Target)
    (unit : TypeVar) : Retains [] (forwarder m params usage target unit).acts := by
  have hreads (locals : List (String × TypeVar)) :
      Expr.actsOf (locals.map fun e => Expr.localVar ⟨m.span, e.2⟩ e.1) = locals.map fun e => .read e.1 e.2 := by
    induction locals with
    | nil => rfl
    | cons e locals ih => exact congrArg (Act.read e.1 e.2 :: ·) ih
  have hacts : (forwarder m params usage target unit).acts = [.closure usage.returns .empty
      ((params.zip usage.args).map Act.bind ++
        ((params.zip usage.args).map (fun e => .read e.1 e.2) ++ [.giveBack]))] := by
    simp [forwarder, Expr.acts, Expr.actsOf, hreads]
  have hfree (bound : List String) : Act.freeAll bound ((params.zip usage.args).map Act.bind ++
      ((params.zip usage.args).map (fun e => .read e.1 e.2) ++ [.giveBack])) = [] := by
    rw [Act.freeAll_params, Act.freeAll_append, Act.freeAll_reads]
    · rfl
    · intro e he
      exact List.mem_append_left _ (List.mem_reverse.2 (List.mem_map_of_mem he))
  rw [hacts]
  refine ⟨rfl, fun bound => ?_, fun _ => ⟨⟨fun n => ?_, ?_⟩, trivial⟩⟩
  · change Act.freeAll bound _ ++ [] = []
    rw [hfree]
    rfl
  · rw [hfree]
    exact iff_of_false List.not_mem_nil (by simp)
  · refine Act.coveredAll_append.2 ⟨?_, Act.coveredAll_append.2 ⟨?_, trivial, trivial⟩⟩
    · exact Act.coveredAll_iff.2 (List.forall_mem_map.2 fun _ _ => trivial)
    · exact Act.coveredAll_iff.2 (List.forall_mem_map.2 fun _ _ => trivial)

theorem forward_retains {m : Mark TypeVar} {target : Target} {e : Expr TypeVar}
    (h : b.forward m target w = .ok e w') : Retains [] e.acts := by
  cases target with
  | resolved path variant =>
    obtain ⟨rfl, -⟩ := pure_eq_ok_iff.1 h
    exact .refl []
  | pending i =>
    obtain ⟨y, hy, h⟩ := eq_ok_iff_exists.1 h
    unfold Binder.forward at hy
    dsimp only at hy
    split at hy <;> subst hy
    · obtain ⟨target', unit, w₁, -, -, rfl⟩ := bind_bind_pure_eq_ok_iff.1 h
      exact forwarder_retains ..
    · exact (throw_eq_ok_iff.1 h).elim

theorem armValueActs_retains (arms arms' : List (Expr TypeVar × List (Expr TypeVar)))
    (h : arms'.length = arms.length) : Retains (Expr.armValueActs arms) (Expr.armValueActs arms') := by
  induction arms generalizing arms' with
  | nil =>
    obtain rfl := List.length_eq_zero_iff.1 h
    exact .refl []
  | cons arm arms ih =>
    obtain ⟨arm', arms', rfl⟩ := List.exists_cons_of_length_eq_add_one h
    exact (Retains.apart _ _).append (ih arms' (Nat.succ.inj h))

theorem armBodyActs_zip {values : List (Expr TypeVar)} {bodies : List (List (Expr TypeVar))}
    (h : values.length = bodies.length) : Expr.armBodyActs (values.zip bodies) = bodies.map Expr.actsOf := by
  induction values generalizing bodies with
  | nil =>
    obtain rfl := List.length_eq_zero_iff.1 h.symm
    rfl
  | cons e values ih =>
    obtain ⟨body, bodies, rfl⟩ := List.exists_cons_of_length_eq_add_one h.symm
    exact congrArg (_ :: ·) (ih (Nat.succ.inj h))

theorem armValues_length {arms : List (Expr TypeVar × List (Expr TypeVar))} {values : List (Expr TypeVar)}
    (h : b.armValues arms w = .ok values w') : values.length = arms.length := by
  induction arms generalizing w values with
  | nil =>
    obtain ⟨rfl, -⟩ := pure_eq_ok_iff.1 h
    rfl
  | cons arm arms ih =>
    obtain ⟨e, rest, w₁, -, hrest, rfl⟩ := bind_bind_pure_eq_ok_iff.1 h
    exact congrArg Nat.succ (ih hrest)

theorem armBodies_length {arms : List (Expr TypeVar × List (Expr TypeVar))} {bodies : List (List (Expr TypeVar))}
    (h : b.armBodies arms w = .ok bodies w') : bodies.length = arms.length := by
  induction arms generalizing w bodies with
  | nil =>
    obtain ⟨rfl, -⟩ := pure_eq_ok_iff.1 h
    rfl
  | cons arm arms ih =>
    obtain ⟨body, rest, w₁, -, hrest, rfl⟩ := bind_bind_pure_eq_ok_iff.1 h
    exact congrArg Nat.succ (ih hrest)

theorem targetActs_eq {target : Expr TypeVar} (h : ∀ m n, target ≠ .localVar m n) (acts : List Act) :
    target.targetActs acts = acts := by
  unfold Expr.targetActs
  split
  · exact absurd rfl (h _ _)
  · rfl

theorem eq_localVar {e : Expr TypeVar} {m : Mark TypeVar} {n : String} (h : b.expr e w = .ok (.localVar m n) w') :
    e = .localVar m n := by
  cases e with
  | localVar m' n' => exact (pure_eq_ok_iff.1 h).1
  | procedure m' target =>
    have hacts := (forward_retains h).free []
    cases hacts
  | matchVariant m' value arms otherwise =>
    cases otherwise <;> simp only [Binder.expr, bind_eq_ok_iff, pure_eq_ok_iff, reduceCtorEq, false_and, and_false,
      exists_false] at h
  | _ =>
    simp only [Binder.expr, bind_eq_ok_iff, pure_eq_ok_iff, reduceCtorEq, false_and, and_false, exists_false] at h

theorem target_retains {target target' : Expr TypeVar} (h : b.expr target w = .ok target' w')
    (hacts : Retains target.acts target'.acts) :
    Retains (target.targetActs target.acts) (target'.targetActs target'.acts) := by
  by_cases htarget : ∃ m n, target = .localVar m n
  · obtain ⟨m, n, rfl⟩ := htarget
    obtain ⟨rfl, -⟩ := pure_eq_ok_iff.1 h
    exact .refl _
  · have hother (m : Mark TypeVar) (n : String) : target ≠ .localVar m n := fun heq => htarget ⟨m, n, heq⟩
    rw [targetActs_eq hother, targetActs_eq fun m n heq => hother m n (eq_localVar (heq ▸ h))]
    exact hacts

mutual

theorem expr_retains : (e : Expr TypeVar) → ∀ {w e' w'}, b.expr e w = .ok e' w' → Retains e.acts e'.acts
  | .literal .., _, _, _, h | .name .., _, _, _, h | .localVar .., _, _, _, h | .declare .., _, _, _, h => by
    obtain ⟨rfl, -⟩ := pure_eq_ok_iff.1 h
    exact .refl _
  | .global m target, _, _, _, h => by
    obtain ⟨target', -, rfl⟩ := bind_pure_eq_ok_iff.1 h
    exact .refl []
  | .procedure m target, _, _, _, h => forward_retains h
  | .invoke m target args, _, _, _, h => by
    obtain ⟨target', args', w₁, -, hargs, rfl⟩ := bind_bind_pure_eq_ok_iff.1 h
    exact exprs_retains args hargs
  | .call m callee args, _, _, _, h => by
    obtain ⟨callee', args', w₁, hcallee, hargs, rfl⟩ := bind_bind_pure_eq_ok_iff.1 h
    exact (expr_retains callee hcallee).append (exprs_retains args hargs)
  | .method m receiver name args, _, _, _, h => by
    obtain ⟨receiver', args', w₁, hreceiver, hargs, rfl⟩ := bind_bind_pure_eq_ok_iff.1 h
    exact (expr_retains receiver hreceiver).append (exprs_retains args hargs)
  | .closure m params body info, _, _, _, h => by
    obtain ⟨body', hbody, rfl⟩ := bind_pure_eq_ok_iff.1 h
    have hbody := exprs_retains body hbody
    cases info with
    | some info => exact ((Retains.refl _).append hbody).closure _ _
    | none => exact .apart _ _
  | .define m name isMutable value, _, _, _, h => by
    obtain ⟨value', hvalue, rfl⟩ := bind_pure_eq_ok_iff.1 h
    exact (expr_retains value hvalue).append (.refl _)
  | .assign m target value, _, _, _, h => by
    obtain ⟨target', value', w₁, htarget, hvalue, rfl⟩ := bind_bind_pure_eq_ok_iff.1 h
    exact (expr_retains value hvalue).append (target_retains htarget (expr_retains target htarget))
  | .giveBack m value, _, _, _, h => by
    obtain ⟨value', hvalue, rfl⟩ := bind_pure_eq_ok_iff.1 h
    exact (expr_retains value hvalue).append (.refl _)
  | .object m members, _, _, _, h => by
    obtain ⟨members', hmembers, rfl⟩ := bind_pure_eq_ok_iff.1 h
    exact namedExprs_retains members hmembers
  | .array m elements, _, _, _, h => by
    obtain ⟨elements', helements, rfl⟩ := bind_pure_eq_ok_iff.1 h
    exact exprs_retains elements helements
  | .repeated m value size, _, _, _, h => by
    obtain ⟨value', size', w₁, hvalue, hsize, rfl⟩ := bind_bind_pure_eq_ok_iff.1 h
    exact (expr_retains value hvalue).append (expr_retains size hsize)
  | .member m owner name, _, _, _, h => by
    obtain ⟨owner', howner, rfl⟩ := bind_pure_eq_ok_iff.1 h
    have howner := expr_retains owner howner
    exact howner
  | .element m owner index, _, _, _, h => by
    obtain ⟨owner', index', w₁, howner, hindex, rfl⟩ := bind_bind_pure_eq_ok_iff.1 h
    exact (expr_retains owner howner).append (expr_retains index hindex)
  | .binary m op left right, _, _, _, h => by
    obtain ⟨left', right', w₁, hleft, hright, rfl⟩ := bind_bind_pure_eq_ok_iff.1 h
    have hright := expr_retains right hright
    refine (expr_retains left hleft).append ?_
    split
    · exact hright.perhaps
    · exact hright
  | .unary m op operand, _, _, _, h => by
    obtain ⟨operand', hoperand, rfl⟩ := bind_pure_eq_ok_iff.1 h
    have hoperand := expr_retains operand hoperand
    exact hoperand
  | .variant m name payload, _, _, _, h => by
    obtain ⟨payload', hpayload, rfl⟩ := bind_pure_eq_ok_iff.1 h
    have hpayload := expr_retains payload hpayload
    exact hpayload
  | .unwrap m value name, _, _, _, h => by
    obtain ⟨value', hvalue, rfl⟩ := bind_pure_eq_ok_iff.1 h
    exact (expr_retains value hvalue).append (.refl _)
  | .constant m value, _, _, _, h => by
    obtain ⟨value', -, rfl⟩ := bind_pure_eq_ok_iff.1 h
    exact .apart _ _
  | .ifElse m condition yes no, _, _, _, h => by
    obtain ⟨condition', w₁, hcondition, h⟩ := bind_eq_ok_iff.1 h
    obtain ⟨yes', no', w₂, hyes, hno, rfl⟩ := bind_bind_pure_eq_ok_iff.1 h
    refine (expr_retains condition hcondition).append (.branch ?_)
    exact .cons (exprs_retains yes hyes) (.cons (exprs_retains no hno) .nil)
  | .matchValue m value arms otherwise, _, _, _, h => by
    obtain ⟨value', w₁, hvalue, h⟩ := bind_eq_ok_iff.1 h
    obtain ⟨values, w₂, hvalues, h⟩ := bind_eq_ok_iff.1 h
    obtain ⟨bodies, otherwise', w₃, hbodies, hotherwise, rfl⟩ := bind_bind_pure_eq_ok_iff.1 h
    have hlength := (armValues_length hvalues).trans (armBodies_length hbodies).symm
    refine (expr_retains value hvalue).append (.append (armValueActs_retains _ _ ?_) (.branch ?_))
    · rw [List.length_zip, ← hlength, Nat.min_self, armValues_length hvalues]
    · rw [armBodyActs_zip hlength]
      exact List.rel_append (armBodies_retains arms hbodies) (.cons (exprs_retains otherwise hotherwise) .nil)
  | .matchVariant m value arms (some otherwise), _, _, _, h => by
    obtain ⟨value', w₁, hvalue, h⟩ := bind_eq_ok_iff.1 h
    obtain ⟨arms', otherwise', w₂, harms, hotherwise, rfl⟩ := bind_bind_pure_eq_ok_iff.1 h
    refine (expr_retains value hvalue).append (.branch ?_)
    exact List.rel_append (variantArms_retains arms harms) (.cons (exprs_retains otherwise hotherwise) .nil)
  | .matchVariant m value arms none, _, _, _, h => by
    obtain ⟨value', arms', w₁, hvalue, harms, rfl⟩ := bind_bind_pure_eq_ok_iff.1 h
    exact (expr_retains value hvalue).append (.branch (variantArms_retains arms harms))

theorem exprs_retains : (es : List (Expr TypeVar)) → ∀ {w es' w'}, b.exprs es w = .ok es' w' →
    Retains (Expr.actsOf es) (Expr.actsOf es')
  | [], _, _, _, h => by
    obtain ⟨rfl, -⟩ := pure_eq_ok_iff.1 h
    exact .refl []
  | e :: rest, _, _, _, h => by
    obtain ⟨e', rest', w₁, he, hrest, rfl⟩ := bind_bind_pure_eq_ok_iff.1 h
    exact (expr_retains e he).append (exprs_retains rest hrest)

theorem namedExprs_retains : (es : List (String × Expr TypeVar)) → ∀ {w es' w'},
    b.namedExprs es w = .ok es' w' → Retains (Expr.namedActs es) (Expr.namedActs es')
  | [], _, _, _, h => by
    obtain ⟨rfl, -⟩ := pure_eq_ok_iff.1 h
    exact .refl []
  | (_, e) :: rest, _, _, _, h => by
    obtain ⟨e', rest', w₁, he, hrest, rfl⟩ := bind_bind_pure_eq_ok_iff.1 h
    exact (expr_retains e he).append (namedExprs_retains rest hrest)

theorem armBodies_retains : (arms : List (Expr TypeVar × List (Expr TypeVar))) → ∀ {w bodies w'},
    b.armBodies arms w = .ok bodies w' →
      List.Forall₂ Retains (Expr.armBodyActs arms) (bodies.map Expr.actsOf)
  | [], _, _, _, h => by
    obtain ⟨rfl, -⟩ := pure_eq_ok_iff.1 h
    exact .nil
  | (_, body) :: rest, _, _, _, h => by
    obtain ⟨body', rest', w₁, hbody, hrest, rfl⟩ := bind_bind_pure_eq_ok_iff.1 h
    exact .cons (exprs_retains body hbody) (armBodies_retains rest hrest)

theorem variantArms_retains : (arms : List (VariantArm TypeVar (List (Expr TypeVar)))) → ∀ {w arms' w'},
    b.variantArms arms w = .ok arms' w' →
      List.Forall₂ Retains (Expr.variantArmActs arms) (Expr.variantArmActs arms')
  | [], _, _, _, h => by
    obtain ⟨rfl, -⟩ := pure_eq_ok_iff.1 h
    exact .nil
  | ⟨_, binding, payload, body⟩ :: rest, _, _, _, h => by
    obtain ⟨body', rest', w₁, hbody, hrest, rfl⟩ := bind_bind_pure_eq_ok_iff.1 h
    exact .cons ((Retains.refl _).append (exprs_retains body hbody)) (variantArms_retains rest hrest)

end

end Binder

namespace Settles

variable {table : SymbolTable} {symbol : Symbol} {params : List String} {v : Variant} {body : List (Expr TypeVar)}
  {d : Draft} {g g' : TypeGraph}

/-- A procedure is like a closure that captures nothing, and closures in it capture what is free in them. -/
theorem covered (h : Settles table symbol params v body d g g') :
    Act.covered (Expr.closureAct params body ⟨v.args, v.returns, .empty⟩) := by
  obtain ⟨_, _, -, hdrafted⟩ := h.drafted
  obtain ⟨b, w, w', -, hbound⟩ := h.bound
  have hdraft := Act.covered_runs _ (Draft.ofProcedure_runs hdrafted)
  have hbody := ((Act.Retains.refl ((params.zip v.args).map Act.bind)).append
    (Binder.exprs_retains d.body hbound)).closure v.returns .empty
  rw [← h.args_eq, ← h.returns_eq] at hdraft
  exact (hbody.covered ⟨hdraft, trivial⟩).1

end Settles
end Monomorph
