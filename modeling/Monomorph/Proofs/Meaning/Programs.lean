import Monomorph.Proofs.Meaning.Procedures
import Monomorph.Proofs.Meaning.Typing
import Monomorph.Proofs.Solve.Checked
import Monomorph.Proofs.Solve.Settled

/-! # Checked programs run as their trees

The body of a kept variant of a procedure is that of a draft whose constraints hold, and its code ends as its
tree does unless a match finds no arm. So on arguments that fit their types both end in the same way
(`Program.check_lower_runs`). -/

namespace Monomorph

variable {A : Type}

/-! ### Core trees -/

namespace Expr

mutual

theorem references_of_isCore : (e : Expr TypeVar) → ∀ {visible p}, isCore visible e = true →
    referencesOf (e.nodes p) = []
  | .literal .., _, _, _ => rfl
  | .localVar .., _, _, _ => rfl
  | .define _ _ _ value, _, _, h => references_of_isCore value (Bool.and_eq_true_iff.1 h).1
  | .declare .., _, _, _ => rfl
  | .assign _ (.localVar _ _) value, _, _, h => by
    rw [nodes, referencesOf_cons, referencesOf_append, references_of_isCore value h]
    rfl
  | .giveBack _ value, _, _, h => references_of_isCore value h
  | .binary _ op left right, _, _, h => by
    rw [nodes, referencesOf_cons, referencesOf_append]
    cases op with
    | and | or =>
      obtain ⟨hleft, h⟩ := Bool.and_eq_true_iff.1 h
      obtain ⟨hright, -⟩ := Bool.and_eq_true_iff.1 h
      rw [references_of_isCore left hleft, references_of_isCore right hright]
      rfl
    | _ =>
      obtain ⟨hleft, hright⟩ := Bool.and_eq_true_iff.1 h
      rw [references_of_isCore left hleft, references_of_isCore right hright]
      rfl
  | .unary _ _ operand, _, _, h => references_of_isCore operand h
  | .variant _ _ payload, _, _, h => references_of_isCore payload h
  | .unwrap _ value _, _, _, h => references_of_isCore value h
  | .ifElse _ condition yes no, _, _, h => by
    obtain ⟨hcondition, h⟩ := Bool.and_eq_true_iff.1 h
    obtain ⟨hyes, hno⟩ := Bool.and_eq_true_iff.1 h
    rw [nodes, referencesOf_cons, referencesOf_append, referencesOf_append,
      references_of_isCore condition hcondition, references_of_areCore yes hyes, references_of_areCore no hno]
    rfl
  | .matchValue _ value arms otherwise, _, _, h => by
    obtain ⟨hvalue, h⟩ := Bool.and_eq_true_iff.1 h
    obtain ⟨harms, hotherwise⟩ := Bool.and_eq_true_iff.1 h
    obtain ⟨hvalues, hbodies⟩ := references_of_valueArms arms harms
    rw [nodes, referencesOf_cons, referencesOf_append, referencesOf_append, referencesOf_append,
      references_of_isCore value hvalue, hvalues, hbodies, references_of_areCore otherwise hotherwise]
    rfl
  | .matchVariant _ value arms (some otherwise), _, _, h => by
    obtain ⟨hvalue, h⟩ := Bool.and_eq_true_iff.1 h
    obtain ⟨harms, hotherwise⟩ := Bool.and_eq_true_iff.1 h
    rw [nodes, referencesOf_cons, referencesOf_append, referencesOf_append, references_of_isCore value hvalue,
      references_of_variantArms arms harms, references_of_areCore otherwise hotherwise]
    rfl
  | .matchVariant _ value arms none, _, _, h => by
    obtain ⟨hvalue, harms⟩ := Bool.and_eq_true_iff.1 h
    rw [nodes, referencesOf_cons, referencesOf_append, references_of_isCore value hvalue,
      references_of_variantArms arms harms]
    rfl

theorem references_of_areCore : (es : List (Expr TypeVar)) → ∀ {visible p}, areCore visible es = true →
    referencesOf (nodesOf p es) = []
  | [], _, _, _ => rfl
  | e :: rest, _, _, h => by
    obtain ⟨he, hrest⟩ := Bool.and_eq_true_iff.1 h
    rw [nodesOf, referencesOf_append, references_of_isCore e he, references_of_areCore rest hrest]
    rfl

theorem references_of_valueArms : (arms : List (Expr TypeVar × List (Expr TypeVar))) → ∀ {visible p},
    areValueArmsCore visible arms = true →
      referencesOf (armValueNodes arms) = [] ∧ referencesOf (armBodyNodes p arms) = []
  | [], _, _, _ => ⟨rfl, rfl⟩
  | (e, body) :: rest, _, _, h => by
    obtain ⟨he, h⟩ := Bool.and_eq_true_iff.1 h
    obtain ⟨hbody, hrest⟩ := Bool.and_eq_true_iff.1 h
    obtain ⟨hvalues, hbodies⟩ := references_of_valueArms rest hrest
    rw [armValueNodes, armBodyNodes, referencesOf_append, referencesOf_append, references_of_isCore e he,
      references_of_areCore body hbody, hvalues, hbodies]
    exact ⟨rfl, rfl⟩

theorem references_of_variantArms : (arms : List (VariantArm TypeVar (List (Expr TypeVar)))) →
    ∀ {visible p}, areVariantArmsCore visible arms = true → referencesOf (variantArmNodes p arms) = []
  | [], _, _, _ => rfl
  | ⟨_, binding, _, body⟩ :: rest, _, _, h => by
    rw [variantArmNodes, referencesOf_append]
    cases binding with
    | none =>
      obtain ⟨hbody, hrest⟩ := Bool.and_eq_true_iff.1 h
      rw [references_of_areCore body hbody, references_of_variantArms rest hrest]
      rfl
    | some n =>
      obtain ⟨-, h⟩ := Bool.and_eq_true_iff.1 h
      obtain ⟨hbody, hrest⟩ := Bool.and_eq_true_iff.1 h
      rw [references_of_areCore body hbody, references_of_variantArms rest hrest]
      rfl

end

end Expr

/-! ### Running procedures -/

/-- The arguments of a call carry values of their types. -/
theorem Store.fits_ofArguments {g : TypeGraph} {params : List String} {types : List TypeVar}
    {values : List (Value A)} (h : List.Forall₂ (Value.Fits g) values types) :
    (Store.ofArguments params values).Fits g (params.zip types).reverse := by
  refine List.rel_reverse ?_
  induction h generalizing params with
  | nil =>
    rw [List.zip_nil_right, List.zip_nil_right]
    exact .nil
  | cons hx _ ih =>
    cases params with
    | nil => exact .nil
    | cons n params => exact .cons ⟨rfl, hx⟩ ih

/-- The code of a procedure ends as the tree of its body. -/
structure Procedure.RunsAs (code : Procedure) (constants : ConstantTable) (evaluate : Evaluator)
    (params : List String) (body : List (Expr TypeVar)) (args : List TypeVar) (g : TypeGraph) : Prop where
  /-- On arguments that fit their types, or types narrowed from these, every match finds an arm. -/
  fitting : ∀ {A : Type} (P : Primitives A) {values : List (Value A)} {g' : TypeGraph}, g.Narrows g' →
    List.Forall₂ (Value.Fits g') values args → Expr.run P evaluate params body values ≠ .error .unmatched ∧
      code.run P constants values = Expr.run P evaluate params body values
  /-- On all arguments with which every match finds an arm. -/
  matched : ∀ {A : Type} (P : Primitives A) {values : List (Value A)}, values.length = params.length →
    Expr.run P evaluate params body values ≠ .error .unmatched →
      code.run P constants values = Expr.run P evaluate params body values

/-- The tree of a procedure finds an arm in every match. -/
theorem Settles.run_ne_unmatched {table : SymbolTable} {symbol : Symbol} {params : List String} {v : Variant}
    {body : List (Expr TypeVar)} {d : Draft} {g g' : TypeGraph} (h : Settles table symbol params v body d g g')
    (hcore : Expr.areCore params body = true) (P : Primitives A) (evaluate : Evaluator)
    {values : List (Value A)} (hvalues : List.Forall₂ (Value.Fits g') values v.args) :
    Expr.run P evaluate params body values ≠ .error .unmatched := by
  obtain ⟨-, hrecorded⟩ := h.recorded
  rw [← h.body_eq (Expr.references_of_areCore body hcore)] at hrecorded
  have hhold : d.records.Hold g' := h.holds
  have hsafe : Expr.BlockSafe g' (.ofParams params v.args v.returns)
      (Expr.evals P evaluate body (Store.ofArguments params values)) :=
    Expr.evals_safe hhold body hcore hrecorded (Store.fits_ofArguments hvalues)
  have hrun : Safe (fun _ => True) (Expr.run P evaluate params body values) := hsafe.bind fun _ _ => trivial
  exact hrun.ne_unmatched

/-! ### Checked programs -/

namespace Program

def lowering (p : Program) (evaluate : Evaluator) : LowerContext :=
  ⟨p.symbols, p.workspace.variants, p.workspace.graph, evaluate⟩

/-- A kept variant of a procedure with a core body is lowered to code that ends as its tree does: on all
arguments of the types that it had when it was accepted. -/
theorem check_lower_runs {p : Program} (hfresh : p.Fresh) (options : CheckOptions) {evaluate : Evaluator}
    {m : Module} (hlower : lower ((p.check options).2.lowering evaluate) = .ok m) {k : VariantId} {v : Variant}
    (hv : (p.check options).2.workspace.variants.find? k = some v) {symbol : Symbol}
    (hsymbol : (p.check options).2.symbols.get? k.symbol = some symbol) {params : List String}
    (hparams : symbol.declaration.params? = some params) {body : List (Expr TypeVar)}
    (hbody : v.body = some body) (hcore : Expr.areCore params body = true) :
    ∃ d g g', Settles (p.check options).2.symbols symbol params v body d g g' ∧
      g'.Sharpens (p.check options).2.workspace.graph ∧
      ∃ code ∈ m.procedures, code.path = symbol.path ∧ code.variant = k.variant ∧
        code.RunsAs m.constants evaluate params body v.args g' := by
  obtain ⟨d, g, g', hsettles, hfinal⟩ := (check_accepted hfresh options hv).settles hsymbol hparams hbody
  obtain ⟨code, hmem, hfrom⟩ := exists_of_lower hlower hsymbol hparams hv hbody
  have hargs := hsettles.recorded.1
  refine ⟨d, g, g', hsettles, hfinal, code, hmem, hfrom.path_eq, hfrom.variant_eq,
    fun P values g'' hnarrows hvalues => ?_, fun P values hvalues => hfrom.run_eq hcore hargs hvalues⟩
  have hmatched := hsettles.run_ne_unmatched hcore P evaluate
    (hvalues.imp fun _ _ hx => hx.of_narrows hnarrows)
  exact ⟨hmatched, hfrom.run_eq hcore hargs (hvalues.length_eq.trans hargs) hmatched⟩

/-- A procedure that assigns in the arms of a match that lists all variants of its argument. -/
def assigning : Program :=
  let m : Mark Unit := ⟨.none, ()⟩
  let number (value : Int64) : Expr Unit := .literal m (.integer value)
  let y : Expr Unit := .name m (.single "y")
  ((empty .modules).add ⟨.single "main", .none, .procedure ["x"]
    [.define m "y" true (number 0),
      .matchVariant m (.name m (.single "x"))
        [⟨"a", some "z", (), [.assign m y (.name m (.single "z"))]⟩, ⟨"b", none, (), [.giveBack m (number 1)]⟩] none,
      .giveBack m (.binary m .add y (number 1))]⟩).2

/-- It is checked and lowered, and its body is core. -/
theorem check_lower_runs_assigning : assigning.Fresh ∧ ∃ m v symbol body,
    lower (assigning.checkedMain.lowering .refusing) = .ok m ∧
    assigning.checkedMain.workspace.variants.find? ⟨0, 0⟩ = some v ∧
    assigning.checkedMain.symbols.get? 0 = some symbol ∧ symbol.declaration.params? = some ["x"] ∧
    v.body = some body ∧ Expr.areCore ["x"] body = true ∧
    ∃ d g g', Settles assigning.checkedMain.symbols symbol ["x"] v body d g g' ∧
      g'.Sharpens assigning.checkedMain.workspace.graph ∧
      ∃ code ∈ m.procedures, code.path = symbol.path ∧ code.variant = 0 ∧
        code.RunsAs m.constants .refusing ["x"] body v.args g' := by
  have hfresh : assigning.Fresh := by cbv
  have hlower : (lower (assigning.checkedMain.lowering .refusing)).isOk = true := by cbv
  have hbody : (assigning.checkedMain.workspace.variants.find? ⟨0, 0⟩ >>= fun v =>
      v.body.map (Expr.areCore ["x"])) = some true := by cbv
  have hsymbol : (assigning.checkedMain.symbols.get? 0 >>= fun s => s.declaration.params?) = some ["x"] := by
    cbv
  obtain ⟨m, hlower⟩ : ∃ m, lower (assigning.checkedMain.lowering .refusing) = .ok m := by
    cases hm : lower (assigning.checkedMain.lowering .refusing) with
    | ok m => exact ⟨m, rfl⟩
    | error e =>
      rw [hm] at hlower
      cases hlower
  obtain ⟨v, hv, hbody⟩ := Option.bind_eq_some_iff.1 hbody
  obtain ⟨body, hbody, hcore⟩ := Option.map_eq_some_iff.1 hbody
  obtain ⟨symbol, hsymbol, hparams⟩ := Option.bind_eq_some_iff.1 hsymbol
  exact ⟨hfresh, m, v, symbol, body, hlower, hv, hsymbol, hparams, hbody, hcore,
    check_lower_runs hfresh ⟨[.single "main"], false⟩ hlower hv hsymbol hparams hbody hcore⟩

end Program
end Monomorph
